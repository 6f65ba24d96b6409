import Mathlib.Tactic
import Mathlib.Logic.Function.Basic
import Mathlib.Data.List.Nodup
import Mathlib.Data.Nat.Bits
import Mathlib.Algebra.BigOperators.Group.Finset.Basic
import Mathlib.Order.Interval.Finset.Nat

/-! The binary buddy system, as mathematics. Blocks are dyadic intervals of
natural numbers, the free store is one list of block starts for each order,
and one bit is kept for each pair of siblings. Nothing here mentions memory:
a client relates its own data to `State` and then uses the invariants below. -/
namespace Buddy

/-- The interval of `2 ^ order` naturals that begins at `start`. -/
structure Block where
  start : Nat
  order : Nat
  deriving DecidableEq, Repr

namespace Block

/-- The naturals of a block. -/
def Mem (b : Block) (i : Nat) : Prop := b.start ≤ i ∧ i < b.start + 2 ^ b.order

instance (b : Block) (i : Nat) : Decidable (b.Mem i) := inferInstanceAs (Decidable (_ ∧ _))

def Aligned (b : Block) : Prop := 2 ^ b.order ∣ b.start

def Disjoint (b c : Block) : Prop := ∀ i, ¬ (b.Mem i ∧ c.Mem i)

instance : Std.Symm Block.Disjoint where
  symm _ _ h i hi := h i ⟨hi.2, hi.1⟩

theorem mem_start (b : Block) : b.Mem b.start := by
  have := Nat.two_pow_pos b.order
  exact ⟨Nat.le_refl _, by omega⟩

end Block

/-- The number of blocks of a list that contain `i`. -/
def cover (bs : List Block) (i : Nat) : Nat := bs.countP (fun b => decide (b.Mem i))

@[simp] theorem cover_nil (i : Nat) : cover [] i = 0 := rfl

@[simp] theorem cover_append (bs cs : List Block) (i : Nat) :
    cover (bs ++ cs) i = cover bs i + cover cs i := List.countP_append

theorem cover_cons (b : Block) (bs : List Block) (i : Nat) :
    cover (b :: bs) i = cover [b] i + cover bs i := cover_append [b] bs i

theorem cover_singleton (b : Block) (i : Nat) :
    cover [b] i = if b.start ≤ i ∧ i < b.start + 2 ^ b.order then 1 else 0 := by
  by_cases h : b.Mem i
  · have hi : b.start ≤ i ∧ i < b.start + 2 ^ b.order := h
    simp [cover, h, hi]
  · have hi : ¬ (b.start ≤ i ∧ i < b.start + 2 ^ b.order) := h
    simp [cover, h, hi]

theorem cover_pos_iff {bs : List Block} {i : Nat} : 0 < cover bs i ↔ ∃ b ∈ bs, b.Mem i := by
  simp [cover, List.countP_pos_iff]

theorem cover_perm {bs cs : List Block} (h : bs.Perm cs) (i : Nat) : cover bs i = cover cs i :=
  h.countP_eq _

theorem cover_halves (s o i : Nat) :
    cover [⟨s, o + 1⟩] i = cover [⟨s, o⟩] i + cover [⟨s + 2 ^ o, o⟩] i := by
  have hpow : 2 ^ (o + 1) = 2 ^ o + 2 ^ o := by rw [pow_succ]; omega
  simp only [cover_singleton, hpow]
  split <;> split <;> split <;> omega

theorem pairwise_disjoint_of_cover_le_one {bs : List Block} (h : ∀ i, cover bs i ≤ 1) :
    bs.Pairwise Block.Disjoint := by
  induction bs with
  | nil => exact List.Pairwise.nil
  | cons b bs ih =>
      refine List.Pairwise.cons ?_ (ih fun i => ?_)
      · intro c hc i hi
        have hb : 0 < cover [b] i := cover_pos_iff.mpr ⟨b, by simp, hi.1⟩
        have hpos : 0 < cover bs i := cover_pos_iff.mpr ⟨c, hc, hi.2⟩
        have := h i
        rw [cover_cons] at this
        omega
      · have := h i
        rw [cover_cons] at this
        omega

theorem cover_le_one {bs : List Block} (h : bs.Pairwise Block.Disjoint) (i : Nat) : cover bs i ≤ 1 := by
  induction bs with
  | nil => exact Nat.zero_le 1
  | cons b bs ih =>
      obtain ⟨hb, hrest⟩ := List.pairwise_cons.mp h
      rw [cover_cons, cover_singleton]
      split_ifs with hi
      · have hnone : ¬ 0 < cover bs i := by
          rw [cover_pos_iff]
          rintro ⟨c, hc, hmem⟩
          exact hb c hc i ⟨hi, hmem⟩
        omega
      · have := ih hrest
        omega

/-- The block lists of a free store, one list of starts for each order. -/
def blocks (F : Nat → List Nat) : Nat → List Block
  | 0 => []
  | n + 1 => blocks F n ++ (F n).map (Block.mk · n)

theorem mem_blocks {F : Nat → List Nat} {n : Nat} {b : Block} :
    b ∈ blocks F n ↔ b.order < n ∧ b.start ∈ F b.order := by
  induction n with
  | zero => simp [blocks]
  | succ n ih =>
      simp only [blocks, List.mem_append, ih, List.mem_map]
      constructor
      · rintro (⟨hlt, hm⟩ | ⟨s, hs, rfl⟩)
        · exact ⟨Nat.lt_succ_of_lt hlt, hm⟩
        · exact ⟨Nat.lt_succ_self _, hs⟩
      · rintro ⟨hlt, hm⟩
        rcases Nat.lt_succ_iff_lt_or_eq.mp hlt with hlt | rfl
        · exact Or.inl ⟨hlt, hm⟩
        · exact Or.inr ⟨b.start, hm, rfl⟩

theorem blocks_congr {F G : Nat → List Nat} {n : Nat} (h : ∀ o < n, F o = G o) :
    blocks F n = blocks G n := by
  induction n with
  | zero => rfl
  | succ n ih =>
      rw [blocks, blocks, ih fun o ho => h o (Nat.lt_succ_of_lt ho), h n (Nat.lt_succ_self n)]

/-- Replacing the list of one order moves the cover of exactly that list. -/
theorem cover_blocks_update {F : Nat → List Nat} {n o : Nat} (ho : o < n) (xs : List Nat)
    (i : Nat) :
    cover (blocks (Function.update F o xs) n) i + cover ((F o).map (Block.mk · o)) i =
      cover (blocks F n) i + cover (xs.map (Block.mk · o)) i := by
  induction n with
  | zero => omega
  | succ n ih =>
      simp only [blocks, cover_append]
      rcases Nat.lt_succ_iff_lt_or_eq.mp ho with hlt | rfl
      · have := ih hlt
        rw [Function.update_of_ne (by omega : n ≠ o)]
        omega
      · have hrest : blocks (Function.update F o xs) o = blocks F o :=
          blocks_congr fun j hj => Function.update_of_ne (Nat.ne_of_lt hj) xs F
        rw [Function.update_self, hrest]
        omega

/-- The number of naturals in the blocks of a free store. -/
def pageCount (F : Nat → List Nat) : Nat → Nat
  | 0 => 0
  | n + 1 => pageCount F n + 2 ^ n * (F n).length

theorem pageCount_congr {F G : Nat → List Nat} {n : Nat}
    (h : ∀ o < n, F o = G o) : pageCount F n = pageCount G n := by
  induction n with
  | zero => rfl
  | succ n ih =>
      rw [pageCount, pageCount, ih fun o ho => h o (Nat.lt_succ_of_lt ho), h n (Nat.lt_succ_self n)]

theorem pageCount_update {F : Nat → List Nat} {n o : Nat} (ho : o < n) (xs : List Nat) :
    pageCount (Function.update F o xs) n + 2 ^ o * (F o).length =
      pageCount F n + 2 ^ o * xs.length := by
  induction n with
  | zero => omega
  | succ n ih =>
      simp only [pageCount]
      rcases Nat.lt_succ_iff_lt_or_eq.mp ho with hlt | rfl
      · have := ih hlt
        rw [Function.update_of_ne (by omega : n ≠ o)]
        omega
      · have hrest : pageCount (Function.update F o xs) o = pageCount F o :=
          pageCount_congr fun j hj => Function.update_of_ne (Nat.ne_of_lt hj) xs F
        rw [Function.update_self, hrest]
        omega

/-- The free store together with the bit of every sibling pair. -/
structure State where
  free : Nat → List Nat
  bit : Nat → Nat → Bool

namespace State

def setFree (S : State) (o : Nat) (xs : List Nat) : State :=
  { S with free := Function.update S.free o xs }

def toggle (S : State) (o k : Nat) : State :=
  { S with bit := Function.update S.bit o (Function.update (S.bit o) k (!S.bit o k)) }

@[simp] theorem setFree_free (S : State) (o : Nat) (xs : List Nat) (j : Nat) :
    (S.setFree o xs).free j = if j = o then xs else S.free j := by
  simp only [setFree, Function.update_apply]

@[simp] theorem setFree_bit (S : State) (o : Nat) (xs : List Nat) :
    (S.setFree o xs).bit = S.bit := rfl

@[simp] theorem toggle_free (S : State) (o k : Nat) : (S.toggle o k).free = S.free := rfl

@[simp] theorem toggle_bit (S : State) (o k j l : Nat) :
    (S.toggle o k).bit j l = if j = o ∧ l = k then !S.bit o k else S.bit j l := by
  by_cases hj : j = o
  · subst hj
    by_cases hl : l = k
    · subst hl; simp [toggle]
    · simp [toggle, hl]
  · simp [toggle, hj]

end State

theorem cover_setFree (S : State) {o top : Nat} (ho : o ≤ top) (xs : List Nat) (i : Nat) :
    cover (blocks (S.setFree o xs).free (top + 1)) i + cover ((S.free o).map (Block.mk · o)) i =
      cover (blocks S.free (top + 1)) i + cover (xs.map (Block.mk · o)) i :=
  cover_blocks_update (Nat.lt_succ_of_le ho) xs i

theorem pageCount_setFree (S : State) {o top : Nat} (ho : o ≤ top) (xs : List Nat) :
    pageCount (S.setFree o xs).free (top + 1) + 2 ^ o * (S.free o).length =
      pageCount S.free (top + 1) + 2 ^ o * xs.length :=
  pageCount_update (Nat.lt_succ_of_le ho) xs

/-- The index of the sibling pair that a block belongs to. -/
def pairOf (s o : Nat) : Nat := s / 2 ^ (o + 1)

/-- The lower member of the pair, which is also the start of the merged block. -/
def lower (s o : Nat) : Nat := pairOf s o * 2 ^ (o + 1)

/-- The other member of the pair. -/
def sibling (s o : Nat) : Nat := if s = lower s o then s + 2 ^ o else lower s o

theorem eq_lower_or_upper {s o : Nat} (h : 2 ^ o ∣ s) :
    s = lower s o ∨ s = lower s o + 2 ^ o := by
  obtain ⟨q, rfl⟩ := h
  have hpos := Nat.two_pow_pos o
  have hpair : pairOf (2 ^ o * q) o = q / 2 := by
    rw [pairOf, pow_succ, Nat.mul_div_mul_left _ _ hpos]
  rw [lower, hpair, pow_succ]
  rcases Nat.mod_two_eq_zero_or_one q with hq | hq
  · left
    calc 2 ^ o * q = 2 ^ o * (2 * (q / 2)) := by rw [show 2 * (q / 2) = q by omega]
      _ = q / 2 * (2 ^ o * 2) := by ring
  · right
    calc 2 ^ o * q = 2 ^ o * (2 * (q / 2) + 1) := by rw [show 2 * (q / 2) + 1 = q by omega]
      _ = q / 2 * (2 ^ o * 2) + 2 ^ o := by ring

theorem dvd_lower (s o : Nat) : 2 ^ (o + 1) ∣ lower s o := Dvd.intro_left _ rfl

theorem cover_merge {s o : Nat} (h : 2 ^ o ∣ s) (i : Nat) :
    cover [⟨s, o⟩] i + cover [⟨sibling s o, o⟩] i = cover [⟨lower s o, o + 1⟩] i := by
  rw [cover_halves]
  by_cases hs : s = lower s o
  · rw [sibling, if_pos hs, ← hs]
  · have hup := (eq_lower_or_upper h).resolve_left hs
    rw [sibling, if_neg hs, ← hup]
    omega

/-- Taking a block of order `o`, splitting a larger one where none is free.
The bit of a pair changes whenever one of its members enters or leaves the store;
the top order has no bits. -/
inductive Take (top : Nat) : Nat → State → Nat → State → Prop
  | top {S b t} : S.free top = b :: t → Take top top S b (S.setFree top t)
  | here {S o b t} : o < top → S.free o = b :: t →
      Take top o S b ((S.setFree o t).toggle o (pairOf b o))
  | split {S S' o b} : o < top → S.free o = [] → Take top (o + 1) S b S' →
      Take top o S b ((S'.setFree o [b + 2 ^ o]).toggle o (pairOf b o))

/-- Returning the block of order `o` at `s`, merging it while the bit of its pair is set. -/
inductive Put (top : Nat) : Nat → Nat → State → State → Prop
  | rest {S o s} : o ≤ top → S.bit o (pairOf s o) = false →
      Put top o s S ((S.setFree o (s :: S.free o)).toggle o (pairOf s o))
  | merge {S S' o s} : o < top → S.bit o (pairOf s o) = true → sibling s o ∈ S.free o →
      Put top (o + 1) (lower s o)
        ((S.setFree o ((S.free o).erase (sibling s o))).toggle o (pairOf s o)) S' →
      Put top o s S S'

theorem Take.order_le {top o b : Nat} {S S' : State} (h : Take top o S b S') : o ≤ top := by
  cases h with
  | top => exact Nat.le_refl _
  | here ho => exact Nat.le_of_lt ho
  | split ho => exact Nat.le_of_lt ho

theorem Take.exists_free {top o b : Nat} {S S' : State} (h : Take top o S b S') :
    ∃ j ≤ top, o ≤ j ∧ S.free j ≠ [] := by
  induction h with
  | top hb => exact ⟨top, Nat.le_refl _, Nat.le_refl _, by simp [hb]⟩
  | @here S o b t ho hb => exact ⟨o, Nat.le_of_lt ho, Nat.le_refl _, by simp [hb]⟩
  | split ho he hrec ih =>
      obtain ⟨j, hj, hle, hne⟩ := ih
      exact ⟨j, hj, Nat.le_of_succ_le hle, hne⟩

theorem Take.lowest {top o b : Nat} {S S' : State} (h : Take top o S b S') :
    ∃ j t, o ≤ j ∧ j ≤ top ∧ (∀ k, o ≤ k → k < j → S.free k = []) ∧ S.free j = b :: t := by
  induction h with
  | @top S b t hb => exact ⟨top, t, Nat.le_refl _, Nat.le_refl _, fun k hk hlt => by omega, hb⟩
  | @here S o b t ho hb => exact ⟨o, t, Nat.le_refl _, Nat.le_of_lt ho, fun k hk hlt => by omega, hb⟩
  | @split S S' o b ho he hrec ih =>
      obtain ⟨j, t, hle, hj, hbelow, hb⟩ := ih
      refine ⟨j, t, Nat.le_of_succ_le hle, hj, ?_, hb⟩
      intro k hk hlt
      rcases Nat.lt_or_eq_of_le hk with hgt | rfl
      · exact hbelow k hgt hlt
      · exact he

theorem Take.free_below {top o b : Nat} {S S' : State} (h : Take top o S b S') {j : Nat}
    (hj : j < o) : S'.free j = S.free j := by
  induction h with
  | top hb => simp [Nat.ne_of_lt hj]
  | here ho hb => simp [Nat.ne_of_lt hj]
  | split ho he hrec ih =>
      simp only [State.toggle_free, State.setFree_free, if_neg (Nat.ne_of_lt hj)]
      exact ih (Nat.lt_succ_of_lt hj)

theorem Take.cover {top o b : Nat} {S S' : State} (h : Take top o S b S') (i : Nat) :
    cover (blocks S.free (top + 1)) i =
      cover (blocks S'.free (top + 1)) i + cover [⟨b, o⟩] i := by
  induction h with
  | @top S b t hb =>
      have := cover_setFree S (Nat.le_refl top) t i
      rw [hb, List.map_cons, cover_cons] at this
      omega
  | @here S o b t ho hb =>
      have := cover_setFree S (Nat.le_of_lt ho) t i
      rw [hb, List.map_cons, cover_cons] at this
      rw [State.toggle_free]
      omega
  | @split S S' o b ho he hrec ih =>
      have := cover_setFree S' (Nat.le_of_lt ho) [b + 2 ^ o] i
      rw [hrec.free_below (Nat.lt_succ_self o), he] at this
      simp only [List.map_cons, List.map_nil, cover_nil] at this
      rw [ih, cover_halves, State.toggle_free]
      omega

theorem Take.pageCount {top o b : Nat} {S S' : State} (h : Take top o S b S') :
    pageCount S.free (top + 1) = pageCount S'.free (top + 1) + 2 ^ o := by
  induction h with
  | @top S b t hb =>
      have := pageCount_setFree S (Nat.le_refl top) t
      rw [hb, List.length_cons, Nat.mul_succ] at this
      omega
  | @here S o b t ho hb =>
      have := pageCount_setFree S (Nat.le_of_lt ho) t
      rw [hb, List.length_cons, Nat.mul_succ] at this
      rw [State.toggle_free]
      omega
  | @split S S' o b ho he hrec ih =>
      have := pageCount_setFree S' (Nat.le_of_lt ho) [b + 2 ^ o]
      rw [hrec.free_below (Nat.lt_succ_self o), he] at this
      simp only [List.length_nil, List.length_singleton, Nat.mul_zero, Nat.mul_one] at this
      rw [ih, pow_succ, State.toggle_free]
      omega

/-- Every listed block starts at a multiple of its size. -/
def Aligned (top : Nat) (S : State) : Prop := ∀ o ≤ top, ∀ s ∈ S.free o, 2 ^ o ∣ s

theorem Take.aligned {top o b : Nat} {S S' : State} (h : Take top o S b S')
    (ha : Aligned top S) : Aligned top S' ∧ 2 ^ o ∣ b := by
  induction h with
  | @top S b t hb =>
      refine ⟨fun j hj s hs => ?_, ha top (Nat.le_refl _) b (by simp [hb])⟩
      by_cases hjt : j = top
      · subst hjt
        exact ha j hj s (by simp_all)
      · exact ha j hj s (by simpa [hjt] using hs)
  | @here S o b t ho hb =>
      refine ⟨fun j hj s hs => ?_, ha o (Nat.le_of_lt ho) b (by simp [hb])⟩
      by_cases hjo : j = o
      · subst hjo
        exact ha j hj s (by simp_all)
      · exact ha j hj s (by simpa [hjo] using hs)
  | @split S S' o b ho he hrec ih =>
      obtain ⟨ha', hb⟩ := ih ha
      have hbo : 2 ^ o ∣ b := dvd_trans (pow_dvd_pow 2 (Nat.le_succ o)) hb
      refine ⟨fun j hj s hs => ?_, hbo⟩
      by_cases hjo : j = o
      · subst hjo
        have : s = b + 2 ^ j := by simpa using hs
        exact this ▸ dvd_add hbo (dvd_refl _)
      · exact ha' j hj s (by simpa [hjo] using hs)

/-- The free store and the blocks in use cover every point below `size` exactly once. -/
structure Tiled (top size : Nat) (S : State) (live : List Block) : Prop where
  aligned : Aligned top S
  live_aligned : ∀ b ∈ live, b.Aligned
  cover : ∀ i, cover (blocks S.free (top + 1)) i + cover live i = if i < size then 1 else 0

namespace Tiled
variable {top size : Nat} {S S' : State} {live : List Block}

theorem perm {live' : List Block} (h : Tiled top size S live) (hp : live.Perm live') :
    Tiled top size S live' :=
  ⟨h.aligned, fun b hb => h.live_aligned b (hp.mem_iff.mpr hb), fun i => by
    rw [← cover_perm hp]; exact h.cover i⟩

theorem all_disjoint (h : Tiled top size S live) :
    (blocks S.free (top + 1) ++ live).Pairwise Block.Disjoint := by
  apply pairwise_disjoint_of_cover_le_one
  intro i
  rw [cover_append, h.cover i]
  split <;> omega

theorem free_disjoint (h : Tiled top size S live) {b c : Block}
    (hb : b ∈ blocks S.free (top + 1)) (hc : c ∈ blocks S.free (top + 1)) (hne : b ≠ c) :
    b.Disjoint c :=
  (List.pairwise_append.mp h.all_disjoint).1.forall hb hc hne

theorem free_live_disjoint (h : Tiled top size S live) {b c : Block}
    (hb : b ∈ blocks S.free (top + 1)) (hc : c ∈ live) : b.Disjoint c :=
  (List.pairwise_append.mp h.all_disjoint).2.2 b hb c hc

theorem mem_lt (h : Tiled top size S live) {b : Block}
    (hb : b ∈ blocks S.free (top + 1) ++ live) {i : Nat} (hi : b.Mem i) : i < size := by
  have hpos : 0 < Buddy.cover (blocks S.free (top + 1) ++ live) i := cover_pos_iff.mpr ⟨b, hb, hi⟩
  rw [cover_append, h.cover i] at hpos
  by_contra hlt
  rw [if_neg hlt] at hpos
  exact Nat.lt_irrefl 0 hpos

theorem free_end_le (h : Tiled top size S live) {o s : Nat} (ho : o ≤ top)
    (hs : s ∈ S.free o) : s + 2 ^ o ≤ size := by
  have hpos := Nat.two_pow_pos o
  have hb : (⟨s, o⟩ : Block) ∈ blocks S.free (top + 1) ++ live :=
    List.mem_append_left _ (mem_blocks.mpr ⟨Nat.lt_succ_of_le ho, hs⟩)
  have := h.mem_lt hb (i := s + 2 ^ o - 1) ⟨by simp only; omega, by simp only; omega⟩
  omega

theorem live_end_le (h : Tiled top size S live) {b : Block} (hb : b ∈ live) :
    b.start + 2 ^ b.order ≤ size := by
  have hpos := Nat.two_pow_pos b.order
  have := h.mem_lt (List.mem_append_right _ hb) (i := b.start + 2 ^ b.order - 1)
    ⟨by omega, by omega⟩
  omega

theorem nodup (h : Tiled top size S live) {o : Nat} (ho : o ≤ top) : (S.free o).Nodup := by
  have hsub : ((S.free o).map (Block.mk · o)).Sublist (blocks S.free (top + 1)) := by
    have hmono : ∀ n, o < n → ((S.free o).map (Block.mk · o)).Sublist (blocks S.free n) := by
      intro n
      induction n with
      | zero => intro hn; omega
      | succ n ih =>
          intro hn
          rcases Nat.lt_succ_iff_lt_or_eq.mp hn with hlt | rfl
          · exact (ih hlt).trans (List.sublist_append_left _ _)
          · exact List.sublist_append_right _ _
    exact hmono (top + 1) (Nat.lt_succ_of_le ho)
  have hpw := (List.pairwise_append.mp h.all_disjoint).1.sublist hsub
  rw [List.pairwise_map] at hpw
  refine hpw.imp ?_
  rintro a b hab rfl
  exact hab a ⟨Block.mem_start _, Block.mem_start _⟩

theorem not_mem_free (h : Tiled top size S live) {b : Block} (hb : b ∈ live) {o : Nat}
    (ho : o ≤ top) : b.start ∉ S.free o := by
  intro hm
  exact h.free_live_disjoint (mem_blocks.mpr ⟨Nat.lt_succ_of_le ho, hm⟩ : (⟨b.start, o⟩ : Block) ∈ _)
    hb b.start ⟨Block.mem_start _, Block.mem_start _⟩

end Tiled

/-- The points below `size` that no free block contains, as blocks of one point. -/
def uncovered (top size : Nat) (S : State) : List Block :=
  ((List.range size).filter fun i => cover (blocks S.free (top + 1)) i = 0).map (Block.mk · 0)

theorem cover_points (xs : List Nat) (i : Nat) : cover (xs.map (Block.mk · 0)) i = xs.count i := by
  induction xs with
  | nil => rfl
  | cons x xs ih =>
      rw [List.map_cons, cover_cons, ih, cover_singleton, List.count_cons]
      by_cases hx : x = i
      · subst hx
        simp [Nat.add_comm]
      · have hne : ¬ (x ≤ i ∧ i < x + 2 ^ 0) := by omega
        simp only [if_neg hne, beq_iff_eq, if_neg hx]
        omega

/-- A store of aligned, disjoint blocks below `size` is tiled by its blocks and the points that
are left. -/
theorem tiled_uncovered {top size : Nat} {S : State} (ha : Aligned top S)
    (hd : (blocks S.free (top + 1)).Pairwise Block.Disjoint)
    (hin : ∀ o ≤ top, ∀ s ∈ S.free o, s + 2 ^ o ≤ size) : Tiled top size S (uncovered top size S) := by
  refine ⟨ha, ?_, fun i => ?_⟩
  · intro b hb
    obtain ⟨i, -, rfl⟩ := List.mem_map.mp hb
    exact one_dvd i
  · have hone := cover_le_one hd i
    have hout : size ≤ i → cover (blocks S.free (top + 1)) i = 0 := by
      intro hi
      by_contra hpos
      obtain ⟨b, hb, -, hmem⟩ := cover_pos_iff.mp (Nat.pos_of_ne_zero hpos)
      obtain ⟨ho, hs⟩ := mem_blocks.mp hb
      have := hin b.order (Nat.le_of_lt_succ ho) b.start hs
      omega
    rw [uncovered, cover_points, (List.nodup_range.filter _).count]
    simp only [List.mem_filter, List.mem_range, decide_eq_true_eq]
    by_cases hi : i < size
    · by_cases hz : cover (blocks S.free (top + 1)) i = 0
      · rw [if_pos ⟨hi, hz⟩, if_pos hi, hz]
      · rw [if_neg fun h => hz h.2, if_pos hi]
        omega
    · rw [if_neg fun h => hi h.1, if_neg hi, hout (Nat.le_of_not_lt hi)]

theorem Take.tiled {top size o b : Nat} {S S' : State} {live : List Block}
    (h : Take top o S b S') (ht : Tiled top size S live) :
    Tiled top size S' (⟨b, o⟩ :: live) := by
  obtain ⟨ha, hb⟩ := h.aligned ht.aligned
  refine ⟨ha, ?_, fun i => ?_⟩
  · rintro c hc
    rcases List.mem_cons.mp hc with rfl | hc
    · exact hb
    · exact ht.live_aligned c hc
  · have := ht.cover i
    rw [h.cover i] at this
    rw [cover_cons]
    omega

theorem Tiled.rest {top size o s : Nat} {S : State} {live : List Block}
    (ht : Tiled top size S (⟨s, o⟩ :: live)) (ho : o ≤ top) (k : Nat) :
    Tiled top size ((S.setFree o (s :: S.free o)).toggle o k) live := by
  refine ⟨fun j hj t hm => ?_, fun b hb => ht.live_aligned b (List.mem_cons_of_mem _ hb), fun i => ?_⟩
  · by_cases hjo : j = o
    · subst hjo
      have hm' : t = s ∨ t ∈ S.free j := by simpa using hm
      rcases hm' with rfl | hm'
      · exact ht.live_aligned ⟨t, j⟩ (by simp)
      · exact ht.aligned j hj t hm'
    · exact ht.aligned j hj t (by simpa [hjo] using hm)
  · have hc := ht.cover i
    have hs := cover_setFree S ho (s :: S.free o) i
    rw [List.map_cons, cover_cons] at hs
    rw [cover_cons] at hc
    rw [State.toggle_free]
    omega

theorem Tiled.merge {top size o s : Nat} {S : State} {live : List Block}
    (ht : Tiled top size S (⟨s, o⟩ :: live)) (ho : o ≤ top) (hsib : sibling s o ∈ S.free o)
    (k : Nat) :
    Tiled top size ((S.setFree o ((S.free o).erase (sibling s o))).toggle o k)
      (⟨lower s o, o + 1⟩ :: live) := by
  have hal : 2 ^ o ∣ s := ht.live_aligned ⟨s, o⟩ (by simp)
  refine ⟨fun j hj t hm => ?_, ?_, fun i => ?_⟩
  · by_cases hjo : j = o
    · subst hjo
      exact ht.aligned j hj t (List.mem_of_mem_erase (by simpa using hm))
    · exact ht.aligned j hj t (by simpa [hjo] using hm)
  · rintro c hc
    rcases List.mem_cons.mp hc with rfl | hc
    · exact dvd_lower s o
    · exact ht.live_aligned c (List.mem_cons_of_mem _ hc)
  · have hc := ht.cover i
    have hs := cover_setFree S ho ((S.free o).erase (sibling s o)) i
    have hp := cover_perm ((List.perm_cons_erase hsib).map (Block.mk · o)) i
    have hm := cover_merge hal i
    rw [List.map_cons, cover_cons] at hp
    rw [cover_cons] at hc ⊢
    rw [State.toggle_free]
    omega

theorem Put.tiled {top size o s : Nat} {S S' : State} {live : List Block}
    (h : Put top o s S S') (ht : Tiled top size S (⟨s, o⟩ :: live)) : Tiled top size S' live := by
  induction h with
  | rest ho hbit => exact ht.rest ho _
  | merge ho hbit hsib hrec ih => exact ih (ht.merge (Nat.le_of_lt ho) hsib _)

theorem Put.pageCount {top o s : Nat} {S S' : State} (h : Put top o s S S') :
    pageCount S'.free (top + 1) = pageCount S.free (top + 1) + 2 ^ o := by
  induction h with
  | @rest S o s ho hbit =>
      have := pageCount_setFree S ho (s :: S.free o)
      rw [List.length_cons, Nat.mul_succ] at this
      rw [State.toggle_free]
      omega
  | @merge S S' o s ho hbit hsib hrec ih =>
      have := pageCount_setFree S (Nat.le_of_lt ho) ((S.free o).erase (sibling s o))
      rw [List.length_erase_of_mem hsib] at this
      have hlen : 0 < (S.free o).length := List.length_pos_of_mem hsib
      have hsplit : 2 ^ o * (S.free o).length = 2 ^ o * ((S.free o).length - 1) + 2 ^ o := by
        rw [← Nat.mul_succ]; congr 1; omega
      rw [ih, State.toggle_free, pow_succ]
      omega

/-- The bit of a pair below `size` says that exactly one of its members is free,
and no pair has both members free. -/
structure Synced (top size : Nat) (S : State) : Prop where
  bit_iff : ∀ o < top, ∀ k, k * 2 ^ (o + 1) < size →
    (S.bit o k = true ↔
      (k * 2 ^ (o + 1) ∈ S.free o ↔ k * 2 ^ (o + 1) + 2 ^ o ∉ S.free o))
  apart : ∀ o < top, ∀ k,
    ¬ (k * 2 ^ (o + 1) ∈ S.free o ∧ k * 2 ^ (o + 1) + 2 ^ o ∈ S.free o)

theorem pairOf_lower {k o : Nat} : pairOf (k * 2 ^ (o + 1)) o = k :=
  Nat.mul_div_cancel k (Nat.two_pow_pos _)

theorem pairOf_upper {k o : Nat} : pairOf (k * 2 ^ (o + 1) + 2 ^ o) o = k := by
  have hpos := Nat.two_pow_pos o
  have hpow : 2 ^ (o + 1) = 2 ^ o + 2 ^ o := by rw [pow_succ]; omega
  rw [pairOf, Nat.add_comm, Nat.add_mul_div_right _ _ (Nat.two_pow_pos _),
    Nat.div_eq_of_lt (by omega)]
  omega

theorem lower_le (s o : Nat) : lower s o ≤ s := Nat.div_mul_le_self s _

theorem lower_of_dvd {b o : Nat} (h : 2 ^ (o + 1) ∣ b) : lower b o = b := Nat.div_mul_cancel h

theorem sibling_ne (s o : Nat) : sibling s o ≠ s := by
  have hpos := Nat.two_pow_pos o
  unfold sibling
  split <;> omega

theorem pairOf_sibling (s o : Nat) : pairOf (sibling s o) o = pairOf s o := by
  unfold sibling
  split_ifs with hs
  · rw [hs]
    exact (pairOf_upper (k := pairOf s o)).trans (pairOf_lower (k := pairOf s o)).symm
  · exact pairOf_lower

/-- What is said symmetrically about the two members of a pair may be said about
either of them and its sibling. -/
theorem pair_symm {s o : Nat} (h : 2 ^ o ∣ s) (P : Nat → Prop) :
    ((P (pairOf s o * 2 ^ (o + 1)) ↔ ¬ P (pairOf s o * 2 ^ (o + 1) + 2 ^ o)) ↔
        (P s ↔ ¬ P (sibling s o))) ∧
      (P (pairOf s o * 2 ^ (o + 1)) ∧ P (pairOf s o * 2 ^ (o + 1) + 2 ^ o) ↔
        P s ∧ P (sibling s o)) := by
  by_cases hs : s = lower s o
  · rw [sibling, if_pos hs, show pairOf s o * 2 ^ (o + 1) = s from hs.symm]
    exact ⟨Iff.rfl, Iff.rfl⟩
  · have hup : pairOf s o * 2 ^ (o + 1) + 2 ^ o = s := ((eq_lower_or_upper h).resolve_left hs).symm
    rw [sibling, if_neg hs, hup, show lower s o = pairOf s o * 2 ^ (o + 1) from rfl]
    tauto

namespace Synced
variable {top size : Nat} {S : State}

/-- The step every operation takes: one list changes inside the pair of `s`, and the bit
of that pair flips exactly when the number of its free members changes parity. -/
theorem toggle {o s : Nat} {xs : List Nat} (h : Synced top size S) (hal : 2 ^ o ∣ s)
    (hother : ∀ t, pairOf t o ≠ pairOf s o → (t ∈ xs ↔ t ∈ S.free o))
    (hflip : (s ∈ xs ↔ sibling s o ∉ xs) ↔ ¬ (s ∈ S.free o ↔ sibling s o ∉ S.free o))
    (hapart : ¬ (s ∈ xs ∧ sibling s o ∈ xs)) :
    Synced top size ((S.setFree o xs).toggle o (pairOf s o)) := by
  refine ⟨fun j hj k hk => ?_, fun j hj k => ?_⟩
  · have hold := h.bit_iff j hj k hk
    simp only [State.toggle_bit, State.toggle_free, State.setFree_free, State.setFree_bit]
    by_cases hjo : j = o
    · subst hjo
      by_cases hkk : k = pairOf s j
      · subst hkk
        rw [if_pos ⟨rfl, rfl⟩, if_pos rfl, (pair_symm hal (· ∈ xs)).1, hflip,
          ← (pair_symm hal (· ∈ S.free j)).1, ← hold, Bool.not_eq_true', Bool.not_eq_true]
      · rw [if_neg fun e => hkk e.2, if_pos rfl, hother _ (by rwa [pairOf_lower]),
          hother _ (by rwa [pairOf_upper]), hold]
    · rw [if_neg fun e => hjo e.1, if_neg hjo, hold]
  · have hold := h.apart j hj k
    simp only [State.toggle_free, State.setFree_free]
    by_cases hjo : j = o
    · subst hjo
      by_cases hkk : k = pairOf s j
      · subst hkk
        rwa [if_pos rfl, (pair_symm hal (· ∈ xs)).2]
      · rwa [if_pos rfl, hother _ (by rwa [pairOf_lower]), hother _ (by rwa [pairOf_upper])]
    · rwa [if_neg hjo]

/-- The top order carries no bits, so its list and bits are free to change. -/
theorem of_top {S' : State} (h : Synced top size S) (hfree : ∀ j < top, S'.free j = S.free j)
    (hbit : ∀ j < top, S'.bit j = S.bit j) : Synced top size S' := by
  refine ⟨fun j hj k hk => ?_, fun j hj k => ?_⟩
  · rw [hfree j hj, hbit j hj]; exact h.bit_iff j hj k hk
  · rw [hfree j hj]; exact h.apart j hj k

/-- The bit of a pair says whether the sibling of a block outside the store is inside it. -/
theorem bit_iff_sibling (h : Synced top size S) {o s : Nat} (ho : o < top) (hal : 2 ^ o ∣ s)
    (hs : s < size) (hout : s ∉ S.free o) :
    S.bit o (pairOf s o) = true ↔ sibling s o ∈ S.free o := by
  rw [h.bit_iff o ho _ (Nat.lt_of_le_of_lt (lower_le s o) hs), (pair_symm hal (· ∈ S.free o)).1]
  simp [hout]

theorem sibling_apart (h : Synced top size S) {o s : Nat} (ho : o < top) (hal : 2 ^ o ∣ s)
    (hs : s ∈ S.free o) : sibling s o ∉ S.free o :=
  fun hm => h.apart o ho _ ((pair_symm hal (· ∈ S.free o)).2.mpr ⟨hs, hm⟩)

end Synced

theorem Take.synced {top size o b : Nat} {S S' : State} {live : List Block}
    (h : Take top o S b S') (ht : Tiled top size S live) (hs : Synced top size S) :
    Synced top size S' := by
  induction h with
  | @top S b t hb =>
      exact hs.of_top (fun j hj => by simp [Nat.ne_of_lt hj]) (fun j hj => rfl)
  | @here S o b t ho hb =>
      -- the taken block leaves its pair; its sibling was not free beside it
      have hmem : b ∈ S.free o := by simp [hb]
      have hal := ht.aligned o (Nat.le_of_lt ho) b hmem
      have hsib := hs.sibling_apart ho hal hmem
      have hnd := ht.nodup (Nat.le_of_lt ho)
      rw [hb, List.nodup_cons] at hnd
      have hsibt : sibling b o ∉ t := fun hm => hsib (by simp [hb, hm])
      refine hs.toggle hal (fun u hu => ?_) ?_ (fun hm => hnd.1 hm.1)
      · have hub : u ≠ b := fun e => hu (by rw [e])
        simp [hb, hub]
      · simp [hmem, hsib, hnd.1, hsibt]
  | @split S S' o b ho he hrec ih =>
      -- the upper half of the split block becomes the only block of its order
      have hfree : S'.free o = [] := (hrec.free_below (Nat.lt_succ_self o)).trans he
      have hdvd := (hrec.aligned ht.aligned).2
      have hal : 2 ^ o ∣ b := dvd_trans (pow_dvd_pow 2 (Nat.le_succ o)) hdvd
      have hsib : sibling b o = b + 2 ^ o := by rw [sibling, if_pos (lower_of_dvd hdvd).symm]
      have hpos := Nat.two_pow_pos o
      refine (ih ht hs).toggle hal (fun u hu => ?_) ?_ ?_
      · have hub : u ≠ b + 2 ^ o := by
          rintro rfl
          exact hu (hsib ▸ pairOf_sibling b o)
        simp [hfree, hub]
      · simp [hfree, hsib]
      · simp

theorem Put.synced {top size o s : Nat} {S S' : State} {live : List Block}
    (h : Put top o s S S') (ht : Tiled top size S (⟨s, o⟩ :: live)) (hs : Synced top size S) :
    Synced top size S' := by
  induction h with
  | @rest S o s ho hbit =>
      have hal : 2 ^ o ∣ s := ht.live_aligned ⟨s, o⟩ (by simp)
      have hout : s ∉ S.free o := ht.not_mem_free (b := ⟨s, o⟩) (by simp) ho
      have hlt : s < size := ht.mem_lt (b := ⟨s, o⟩) (by simp) (Block.mem_start _)
      rcases Nat.lt_or_eq_of_le ho with ho | rfl
      · have hsib : sibling s o ∉ S.free o := by
          rw [← hs.bit_iff_sibling ho hal hlt hout, hbit]
          exact Bool.false_ne_true
        refine hs.toggle hal (fun u hu => ?_) ?_ ?_
        · have hus : u ≠ s := fun e => hu (by rw [e])
          simp [hus]
        · simp [hout, hsib, sibling_ne]
        · simp [hsib, sibling_ne]
      · exact hs.of_top (fun j hj => by simp [Nat.ne_of_lt hj])
          (fun j hj => by funext l; simp [Nat.ne_of_lt hj])
  | @merge S S' o s ho hbit hsib hrec ih =>
      have hal : 2 ^ o ∣ s := ht.live_aligned ⟨s, o⟩ (by simp)
      have hout : s ∉ S.free o := ht.not_mem_free (b := ⟨s, o⟩) (by simp) (Nat.le_of_lt ho)
      have hnd := ht.nodup (Nat.le_of_lt ho)
      have hgone : sibling s o ∉ (S.free o).erase (sibling s o) := hnd.not_mem_erase
      refine ih (ht.merge (Nat.le_of_lt ho) hsib _) (hs.toggle hal (fun u hu => ?_) ?_ ?_)
      · have hus : u ≠ sibling s o := fun e => hu (e ▸ pairOf_sibling s o)
        exact List.mem_erase_of_ne hus
      · have hout' : s ∉ (S.free o).erase (sibling s o) := fun hm => hout (List.mem_of_mem_erase hm)
        simp [hout, hout', hsib, hgone]
      · exact fun hm => hgone hm.2

/-- Aligned blocks are nested or disjoint: a block that contains a point of an aligned
interval of at most its own size contains the whole interval. -/
theorem Block.Aligned.mem_of_mem {b : Block} {i j n : Nat} (hb : b.Aligned) (hn : n ≤ b.order)
    (hi : b.Mem i) (hij : i / 2 ^ n = j / 2 ^ n) : b.Mem j := by
  have hdiv : i / 2 ^ b.order = j / 2 ^ b.order := by
    obtain ⟨m, hm⟩ := Nat.exists_eq_add_of_le hn
    rw [hm, pow_add, ← Nat.div_div_eq_div_mul, ← Nat.div_div_eq_div_mul, hij]
  obtain ⟨q, hq⟩ := hb
  have hpos := Nat.two_pow_pos b.order
  obtain ⟨hlo, hhi⟩ := hi
  have hqi : i / 2 ^ b.order = q := by
    apply Nat.div_eq_of_lt_le
    · rw [Nat.mul_comm]; omega
    · rw [Nat.succ_mul, Nat.mul_comm]; omega
  have hqj : j / 2 ^ b.order = q := by omega
  have hdm := Nat.div_add_mod j (2 ^ b.order)
  have hmod := Nat.mod_lt j hpos
  rw [hqj] at hdm
  exact ⟨by omega, by omega⟩

theorem Block.Aligned.start_eq {b : Block} {t : Nat} (hb : b.Aligned) (ht : 2 ^ b.order ∣ t)
    (hm : b.Mem t) : b.start = t := by
  obtain ⟨p, hp⟩ := hb
  obtain ⟨r, hr⟩ := ht
  obtain ⟨hlo, hhi⟩ := hm
  have h1 : p ≤ r := Nat.le_of_mul_le_mul_left (by omega) (Nat.two_pow_pos b.order)
  have h2 : r < p + 1 := Nat.lt_of_mul_lt_mul_left (a := 2 ^ b.order) (by rw [Nat.mul_succ]; omega)
  rw [hp, hr, show p = r by omega]

/-- A store with nothing in use and every pair merged holds only blocks of the top order. -/
theorem Tiled.only_top {top size : Nat} {S : State} (ht : Tiled top size S [])
    (hs : Synced top size S) (hsize : 2 ^ top ∣ size) : ∀ o < top, S.free o = [] := by
  intro o
  -- an order without blocks below it cannot hold a block whose sibling is not beside it
  induction o using Nat.strongRecOn with
  | _ o ih =>
      intro ho
      rw [List.eq_nil_iff_forall_not_mem]
      intro s hsm
      have hal := ht.aligned o (Nat.le_of_lt ho) s hsm
      have hsib := hs.sibling_apart ho hal hsm
      have hpair : sibling s o / 2 ^ (o + 1) = s / 2 ^ (o + 1) := pairOf_sibling s o
      have hlt : sibling s o < size := by
        obtain ⟨q, hq⟩ : 2 ^ (o + 1) ∣ size := dvd_trans (pow_dvd_pow 2 ho) hsize
        have hspos : s < size := ht.mem_lt (b := ⟨s, o⟩)
          (List.mem_append_left _ (mem_blocks.mpr ⟨Nat.lt_succ_of_lt ho, hsm⟩)) (Block.mem_start _)
        have hsq : s / 2 ^ (o + 1) < q := Nat.div_lt_of_lt_mul (hq ▸ hspos)
        rw [hq]
        exact (Nat.div_lt_iff_lt_mul (Nat.two_pow_pos _)).mp (hpair ▸ hsq) |>.trans_le
          (Nat.le_of_eq (Nat.mul_comm _ _))
      have hpos : 0 < Buddy.cover (blocks S.free (top + 1)) (sibling s o) := by
        have := ht.cover (sibling s o)
        rw [if_pos hlt, cover_nil] at this
        omega
      obtain ⟨c, hc, hmem⟩ := cover_pos_iff.mp hpos
      obtain ⟨hct, hcf⟩ := mem_blocks.mp hc
      have hcal : c.Aligned := ht.aligned c.order (Nat.le_of_lt_succ hct) c.start hcf
      rcases Nat.lt_trichotomy c.order o with hlt' | heq | hgt
      · rw [ih c.order hlt' (Nat.lt_trans hlt' ho)] at hcf
        exact List.not_mem_nil hcf
      · -- same order: the covering block is the sibling itself
        have hsal : 2 ^ o ∣ sibling s o := by
          unfold sibling
          split_ifs
          · exact dvd_add hal (dvd_refl _)
          · exact dvd_trans (pow_dvd_pow 2 (Nat.le_succ o)) (dvd_lower s o)
        have hstart : c.start = sibling s o := hcal.start_eq (heq ▸ hsal) hmem
        rw [heq, hstart] at hcf
        exact hsib hcf
      · -- a larger block covers the whole pair, hence also `s`
        have hsmem : c.Mem s := hcal.mem_of_mem hgt hmem hpair
        have hb : (⟨s, o⟩ : Block) ∈ blocks S.free (top + 1) :=
          mem_blocks.mpr ⟨Nat.lt_succ_of_lt ho, hsm⟩
        have hne : c ≠ ⟨s, o⟩ := by
          rintro rfl
          exact Nat.lt_irrefl _ hgt
        exact ht.free_disjoint hc hb hne s ⟨hsmem, Block.mem_start _⟩

theorem Tiled.top_exact {top size : Nat} {S : State} (ht : Tiled top size S [])
    (hlow : ∀ o < top, S.free o = []) (s : Nat) :
    s ∈ S.free top ↔ 2 ^ top ∣ s ∧ s < size := by
  constructor
  · intro hs
    have hend := ht.free_end_le (Nat.le_refl top) hs
    have hpos := Nat.two_pow_pos top
    exact ⟨ht.aligned top (Nat.le_refl top) s hs, by omega⟩
  · rintro ⟨hdvd, hlt⟩
    have hpos : 0 < Buddy.cover (blocks S.free (top + 1)) s := by
      have := ht.cover s
      rw [if_pos hlt, cover_nil] at this
      omega
    obtain ⟨c, hc, hmem⟩ := cover_pos_iff.mp hpos
    obtain ⟨hct, hcf⟩ := mem_blocks.mp hc
    rcases Nat.lt_succ_iff_lt_or_eq.mp hct with hlt' | heq
    · rw [hlow c.order hlt'] at hcf
      exact absurd hcf List.not_mem_nil
    · have hcal : c.Aligned := ht.aligned c.order (Nat.le_of_lt_succ hct) c.start hcf
      rw [hcal.start_eq (heq ▸ hdvd) hmem, heq] at hcf
      exact hcf

theorem sum_cover {bs : List Block} {size : Nat} (h : ∀ b ∈ bs, b.start + 2 ^ b.order ≤ size) :
    ∑ i ∈ Finset.range size, cover bs i = (bs.map (2 ^ ·.order)).sum := by
  induction bs with
  | nil => simp
  | cons b bs ih =>
      have hb := h b (by simp)
      have hone : ∑ i ∈ Finset.range size, cover [b] i = 2 ^ b.order := by
        simp only [cover_singleton]
        rw [Finset.sum_boole, show Finset.filter (fun i => b.start ≤ i ∧ i < b.start + 2 ^ b.order)
          (Finset.range size) = Finset.Ico b.start (b.start + 2 ^ b.order) by
            ext i; simp only [Finset.mem_filter, Finset.mem_range, Finset.mem_Ico]; omega]
        simp
      simp only [cover_cons b bs, Finset.sum_add_distrib, hone, List.map_cons, List.sum_cons,
        ih fun c hc => h c (List.mem_cons_of_mem b hc)]

theorem sum_blocks (F : Nat → List Nat) (n : Nat) :
    ((blocks F n).map (2 ^ ·.order)).sum = pageCount F n := by
  induction n with
  | zero => rfl
  | succ n ih => simp [blocks, pageCount, ih, Function.comp_def, Nat.mul_comm]

/-- The free blocks and the blocks in use account for every point. -/
theorem Tiled.pageCount_add {top size : Nat} {S : State} {live : List Block}
    (h : Tiled top size S live) :
    pageCount S.free (top + 1) + (live.map (2 ^ ·.order)).sum = size := by
  have hend : ∀ b ∈ blocks S.free (top + 1), b.start + 2 ^ b.order ≤ size := fun b hb =>
    h.free_end_le (Nat.le_of_lt_succ (mem_blocks.mp hb).1) (mem_blocks.mp hb).2
  rw [← sum_blocks, ← sum_cover hend, ← sum_cover fun b hb => h.live_end_le hb,
    ← Finset.sum_add_distrib]
  calc ∑ i ∈ Finset.range size, (Buddy.cover (blocks S.free (top + 1)) i + Buddy.cover live i)
      = ∑ i ∈ Finset.range size, 1 := by
        refine Finset.sum_congr rfl fun i hi => ?_
        rw [h.cover i, if_pos (Finset.mem_range.mp hi)]
    _ = size := by simp

theorem le_pageCount {F : Nat → List Nat} {n o : Nat} (ho : o < n) (hF : F o ≠ []) :
    2 ^ o ≤ pageCount F n := by
  induction n with
  | zero => omega
  | succ n ih =>
      rw [pageCount]
      rcases Nat.lt_succ_iff_lt_or_eq.mp ho with hlt | rfl
      · have := ih hlt
        omega
      · have hlen : 1 ≤ (F o).length := List.length_pos_iff.mpr hF
        have := Nat.mul_le_mul_left (2 ^ o) hlen
        omega

/-- The free blocks and the blocks in use partition the naturals below `size`. -/
structure Partition (top size : Nat) (free : Nat → List Nat) (live : List Block) : Prop where
  aligned : ∀ o ≤ top, ∀ s ∈ free o, 2 ^ o ∣ s
  disjoint : (blocks free (top + 1) ++ live).Pairwise Block.Disjoint
  inside : ∀ b ∈ blocks free (top + 1) ++ live, b.start + 2 ^ b.order ≤ size
  complete : ∀ i < size, ∃ b ∈ blocks free (top + 1) ++ live, b.Mem i

theorem Tiled.partition {top size : Nat} {S : State} {live : List Block}
    (h : Tiled top size S live) : Partition top size S.free live := by
  refine ⟨h.aligned, h.all_disjoint, fun b hb => ?_, fun i hi => ?_⟩
  · rcases List.mem_append.mp hb with hb | hb
    · obtain ⟨ho, hs⟩ := mem_blocks.mp hb
      exact h.free_end_le (Nat.le_of_lt_succ ho) hs
    · exact h.live_end_le hb
  · have hc := h.cover i
    rw [if_pos hi, ← cover_append] at hc
    exact cover_pos_iff.mp (by omega)

/-- The starts of the top blocks below `n * 2 ^ top`. -/
def topBlocks (top n : Nat) : List Nat := (List.range n).map (· * 2 ^ top)

theorem cover_topBlocks (top n i : Nat) :
    cover ((topBlocks top n).map (Block.mk · top)) i = if i < n * 2 ^ top then 1 else 0 := by
  induction n with
  | zero => simp [topBlocks]
  | succ n ih =>
      rw [topBlocks, List.range_succ, List.map_append, List.map_append, cover_append]
      rw [topBlocks] at ih
      have hpos := Nat.two_pow_pos top
      simp only [List.map_cons, List.map_nil, cover_singleton, ih, Nat.succ_mul]
      split <;> split <;> split <;> omega

theorem blocks_of_nil {F : Nat → List Nat} {n : Nat} (h : ∀ o < n, F o = []) : blocks F n = [] := by
  rw [List.eq_nil_iff_forall_not_mem]
  intro b hb
  obtain ⟨ho, hs⟩ := mem_blocks.mp hb
  rw [h _ ho] at hs
  exact List.not_mem_nil hs

theorem tiled_topBlocks {top n : Nat} {S : State} (htop : S.free top = topBlocks top n)
    (hlow : ∀ o < top, S.free o = []) : Tiled top (n * 2 ^ top) S [] := by
  refine ⟨fun o ho s hs => ?_, nofun, fun i => ?_⟩
  · rcases Nat.lt_or_eq_of_le ho with hlt | rfl
    · rw [hlow o hlt] at hs
      exact absurd hs List.not_mem_nil
    · rw [htop, topBlocks, List.mem_map] at hs
      obtain ⟨q, _, rfl⟩ := hs
      exact Dvd.intro_left q rfl
  · rw [blocks, blocks_of_nil hlow, List.nil_append, htop, cover_topBlocks, cover_nil]
    rfl

theorem synced_of_clear {top size : Nat} {S : State} (hlow : ∀ o < top, S.free o = [])
    (hbit : ∀ o < top, ∀ k, k * 2 ^ (o + 1) < size → S.bit o k = false) : Synced top size S := by
  refine ⟨fun o ho k hk => ?_, fun o ho k => ?_⟩
  · simp [hlow o ho, hbit o ho k hk]
  · simp [hlow o ho]

end Buddy
