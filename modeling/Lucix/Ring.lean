import Mathlib.Tactic
import Mathlib.Logic.Function.Basic
import Mathlib.Data.List.Nodup

/-! Circular doubly linked lists threaded through an arbitrary set of nodes.
Nothing here knows what a node is; a client supplies the node type and reads
the represented sequence off `IsRing`. -/
namespace Ring

/-- The two link fields of every node. -/
structure Links (α : Type*) where
  next : α → α
  prev : α → α

namespace Links

section reading
variable {α : Type*}

/-- Each link of the pair names the other node. -/
def Adj (L : Links α) (a b : α) : Prop := L.next a = b ∧ L.prev b = a

/-- The nodes `xs` lie, in this order, strictly between `a` and `b`. -/
def Seg (L : Links α) : α → List α → α → Prop
  | a, [], b => L.Adj a b
  | a, x :: xs, b => L.Adj a x ∧ L.Seg x xs b

/-- The node `h` heads the circular list of the nodes `xs`. -/
structure IsRing (L : Links α) (h : α) (xs : List α) : Prop where
  seg : L.Seg h xs h
  nodup : (h :: xs).Nodup

/-- A node that is the only member of its ring. -/
def SelfLinked (L : Links α) (a : α) : Prop := L.Adj a a

theorem isRing_nil {L : Links α} {a : α} : L.IsRing a [] ↔ L.SelfLinked a :=
  ⟨fun h => h.seg, fun h => ⟨h, by simp⟩⟩

theorem seg_append {L : Links α} {xs ys : List α} {a y b : α} :
    L.Seg a (xs ++ y :: ys) b ↔ L.Seg a xs y ∧ L.Seg y ys b := by
  induction xs generalizing a with
  | nil => rfl
  | cons x xs ih => simp only [List.cons_append, Seg, ih, and_assoc]

/-- A segment only reads the outgoing links of its start and the incoming links of its end. -/
theorem Seg.congr {L M : Links α} {xs : List α} {a b : α} (h : L.Seg a xs b)
    (hn : ∀ n ∈ a :: xs, M.next n = L.next n) (hp : ∀ n ∈ b :: xs, M.prev n = L.prev n) :
    M.Seg a xs b := by
  induction xs generalizing a with
  | nil => exact ⟨(hn a (by simp)).trans h.1, (hp b (by simp)).trans h.2⟩
  | cons x xs ih =>
      refine ⟨⟨(hn a (by simp)).trans h.1.1, (hp x (by simp)).trans h.1.2⟩, ih h.2 ?_ ?_⟩
      · exact fun n hm => hn n (List.mem_cons_of_mem a hm)
      · intro n hm
        rcases List.mem_cons.mp hm with rfl | hm
        · exact hp n (by simp)
        · exact hp n (by simp [hm])

theorem IsRing.congr {L M : Links α} {h : α} {xs : List α} (hr : L.IsRing h xs)
    (hn : ∀ n ∈ h :: xs, M.next n = L.next n) (hp : ∀ n ∈ h :: xs, M.prev n = L.prev n) :
    M.IsRing h xs := ⟨hr.seg.congr hn hp, hr.nodup⟩

theorem IsRing.empty_iff {L : Links α} {h : α} {xs : List α} (hr : L.IsRing h xs) :
    L.next h = h ↔ xs = [] := by
  cases xs with
  | nil => exact ⟨fun _ => rfl, fun _ => hr.seg.1⟩
  | cons x xs =>
      have hx : L.next h = x := hr.seg.1.1
      have hne : h ≠ x := fun e => (List.nodup_cons.mp hr.nodup).1 (by simp [e])
      simp only [hx, reduceCtorEq, iff_false]
      exact fun e => hne e.symm

theorem IsRing.next_head {L : Links α} {h x : α} {xs : List α} (hr : L.IsRing h (x :: xs)) :
    L.next h = x := hr.seg.1.1

theorem Seg.map_next {L : Links α} {xs : List α} {a b : α} (h : L.Seg a xs b) :
    (a :: xs).map L.next = xs ++ [b] := by
  induction xs generalizing a with
  | nil => rw [List.map_singleton, h.1, List.nil_append]
  | cons x xs ih => rw [List.map_cons, h.1.1, ih h.2, List.cons_append]

theorem Seg.next_mem {L : Links α} {xs : List α} {a b x : α} (h : L.Seg a xs b)
    (hx : x ∈ a :: xs) : L.next x ∈ xs ++ [b] := by
  induction xs generalizing a with
  | nil =>
      rw [List.mem_singleton.mp hx, h.1]
      simp
  | cons y xs ih =>
      rcases List.mem_cons.mp hx with rfl | hx
      · rw [h.1.1]; simp
      · exact List.mem_cons_of_mem y (ih h.2 hx)

theorem Seg.prev_mem {L : Links α} {xs : List α} {a b x : α} (h : L.Seg a xs b)
    (hx : x ∈ xs ++ [b]) : L.prev x ∈ a :: xs := by
  induction xs generalizing a with
  | nil =>
      rw [List.mem_singleton.mp hx, h.2]
      simp
  | cons y xs ih =>
      rcases List.mem_cons.mp hx with rfl | hx
      · rw [h.1.2]; simp
      · exact List.mem_cons_of_mem a (ih h.2 hx)

theorem IsRing.next_mem {L : Links α} {h x : α} {xs : List α} (hr : L.IsRing h xs)
    (hx : x ∈ h :: xs) : L.next x ∈ h :: xs := by
  have := hr.seg.next_mem hx
  simpa [or_comm] using this

theorem IsRing.prev_mem {L : Links α} {h x : α} {xs : List α} (hr : L.IsRing h xs)
    (hx : x ∈ h :: xs) : L.prev x ∈ h :: xs :=
  hr.seg.prev_mem (by simpa [or_comm] using hx)

theorem IsRing.swap {L : Links α} {a b : α} (hr : L.IsRing a [b]) : L.IsRing b [a] := by
  refine ⟨⟨hr.seg.2, hr.seg.1⟩, ?_⟩
  have hne := hr.nodup
  simp only [List.nodup_cons, List.mem_singleton, List.not_mem_nil, not_false_eq_true,
    List.nodup_nil, and_self, and_true] at hne ⊢
  exact fun e => hne e.symm

theorem Seg.imp {L M : Links α} {xs : List α} {a b : α} (h : L.Seg a xs b)
    (hadj : ∀ u ∈ a :: xs, ∀ v ∈ xs ++ [b], L.Adj u v → M.Adj u v) : M.Seg a xs b := by
  induction xs generalizing a with
  | nil => exact hadj a (by simp) b (by simp) h
  | cons x xs ih =>
      refine ⟨hadj a (by simp) x (by simp) h.1, ih h.2 ?_⟩
      intro u hu v hv
      exact hadj u (List.mem_cons_of_mem a hu) v (List.mem_cons_of_mem x hv)

/-- A family of rings that share no node. -/
structure Rings {ι : Type*} (L : Links α) (head : ι → α) (lists : ι → List α) : Prop where
  ring : ∀ i, L.IsRing (head i) (lists i)
  apart : ∀ i j, ∀ n ∈ head i :: lists i, n ∈ head j :: lists j → i = j

end reading

section writing
variable {α : Type*} [DecidableEq α]

/-- The nodes met from `a` on before `stop`, or `none` when `fuel` steps do not reach it. -/
def walk (L : Links α) (stop : α) : Nat → α → Option (List α)
  | 0, _ => none
  | fuel + 1, a => if L.next a = stop then some [] else
      (L.walk stop fuel (L.next a)).map (L.next a :: ·)

/-- The links determine the represented sequence, and a long enough walk reads it back. -/
theorem Seg.walk {L : Links α} {xs : List α} {a b : α} (hs : L.Seg a xs b) (hb : b ∉ xs)
    {fuel : Nat} (hf : xs.length < fuel) : L.walk b fuel a = some xs := by
  induction xs generalizing a fuel with
  | nil =>
      obtain ⟨fuel, rfl⟩ := Nat.exists_eq_succ_of_ne_zero (by omega : fuel ≠ 0)
      simp only [Links.walk, hs.1, if_true]
  | cons x xs ih =>
      obtain ⟨fuel, rfl⟩ := Nat.exists_eq_succ_of_ne_zero (by omega : fuel ≠ 0)
      have hx : x ≠ b := fun e => hb (by simp [e])
      have hrest := ih hs.2 (fun hm => hb (List.mem_cons_of_mem x hm))
        (by simpa using hf : xs.length < fuel)
      simp only [Links.walk, hs.1.1, if_neg hx, hrest, Option.map_some]

theorem IsRing.walk {L : Links α} {h : α} {xs : List α} (hr : L.IsRing h xs)
    {fuel : Nat} (hf : xs.length < fuel) : L.walk h fuel h = some xs :=
  hr.seg.walk (List.nodup_cons.mp hr.nodup).1 hf

def setNext (L : Links α) (a b : α) : Links α := { L with next := Function.update L.next a b }

def setPrev (L : Links α) (a b : α) : Links α := { L with prev := Function.update L.prev a b }

@[simp] theorem setNext_next (L : Links α) (a b n : α) :
    (L.setNext a b).next n = if n = a then b else L.next n := by
  simp only [setNext, Function.update_apply]

@[simp] theorem setNext_prev (L : Links α) (a b : α) : (L.setNext a b).prev = L.prev := rfl

@[simp] theorem setPrev_prev (L : Links α) (a b n : α) :
    (L.setPrev a b).prev n = if n = a then b else L.prev n := by
  simp only [setPrev, Function.update_apply]

@[simp] theorem setPrev_next (L : Links α) (a b : α) : (L.setPrev a b).next = L.next := rfl

/-- The links of the nodes in `D` are the same. -/
def AgreeOn (D : α → Prop) (L M : Links α) : Prop := ∀ n, D n → L.next n = M.next n ∧ L.prev n = M.prev n

theorem AgreeOn.setNext {D : α → Prop} {L M : Links α} (h : L.AgreeOn D M) (a b : α) :
    (L.setNext a b).AgreeOn D (M.setNext a b) := by
  intro n hn
  simp [h n hn]

theorem AgreeOn.setPrev {D : α → Prop} {L M : Links α} (h : L.AgreeOn D M) (a b : α) :
    (L.setPrev a b).AgreeOn D (M.setPrev a b) := by
  intro n hn
  simp [h n hn]

/-- Put `x` between the consecutive nodes `a` and `b`. -/
def insertBetween (L : Links α) (x a b : α) : Links α :=
  (((L.setPrev b x).setNext x b).setPrev x a).setNext a x

/-- Make `a` and `b` neighbours, dropping what stood between them. -/
def joinOver (L : Links α) (a b : α) : Links α := (L.setPrev b a).setNext a b

section insertion
variable {L : Links α} {x a b : α}

theorem insertBetween_left : (L.insertBetween x a b).Adj a x := by
  simp [insertBetween, Adj]

theorem insertBetween_right (hb : x ≠ b) (ha : x ≠ a) : (L.insertBetween x a b).Adj x b := by
  simp [insertBetween, Adj, ha, hb.symm]

/-- Every adjacency away from the insertion point survives. -/
theorem Adj.insertBetween {u v : α} (hab : L.Adj a b) (huv : L.Adj u v)
    (ha : u ≠ a) (hu : u ≠ x) (hv : v ≠ x) : (L.insertBetween x a b).Adj u v := by
  have hvb : v ≠ b := by
    rintro rfl
    exact ha (huv.2.symm.trans hab.2)
  simp [Links.insertBetween, Adj, ha, hu, hv, hvb, huv.1, huv.2]

end insertion

theorem IsRing.insert_head {L : Links α} {h x : α} {xs : List α} (hr : L.IsRing h xs)
    (hx : x ∉ h :: xs) : (L.insertBetween x h (L.next h)).IsRing h (x :: xs) := by
  have hxh : x ≠ h := fun e => hx (by simp [e])
  have hnd : (h :: x :: xs).Nodup := by
    simp only [List.nodup_cons, List.mem_cons, not_or] at hx ⊢
    have := hr.nodup
    simp only [List.nodup_cons] at this
    exact ⟨⟨fun e => hx.1 e.symm, this.1⟩, hx.2, this.2⟩
  refine ⟨⟨insertBetween_left, ?_⟩, hnd⟩
  cases xs with
  | nil =>
      rw [show L.next h = h from hr.seg.1]
      exact insertBetween_right hxh hxh
  | cons b xs =>
      rw [hr.next_head]
      refine ⟨insertBetween_right (fun e => hx (by simp [e])) hxh, hr.seg.2.imp ?_⟩
      intro u hu v hv huv
      have hh := (List.nodup_cons.mp hr.nodup).1
      refine Adj.insertBetween hr.seg.1 huv (fun e => hh (e ▸ hu)) ?_ ?_
      · exact fun e => hx (List.mem_cons_of_mem h (e ▸ hu))
      · rintro rfl
        rcases List.mem_append.mp hv with hv | hv
        · exact hx (by simp [hv])
        · exact hxh (by simpa using hv)

theorem IsRing.insert_tail {L : Links α} {h x : α} {xs : List α} (hr : L.IsRing h xs)
    (hx : x ∉ h :: xs) : (L.insertBetween x (L.prev h) h).IsRing h (xs ++ [x]) := by
  have hxh : x ≠ h := fun e => hx (by simp [e])
  have hnd : (h :: (xs ++ [x])).Nodup := by
    have hrn := List.nodup_cons.mp hr.nodup
    simp only [List.mem_cons, not_or] at hx
    refine List.nodup_cons.mpr ⟨by simpa using ⟨hrn.1, fun e => hxh e.symm⟩, ?_⟩
    exact List.nodup_append.mpr ⟨hrn.2, by simp, by
      intro y hy z hz
      rw [List.mem_singleton] at hz
      exact fun e => hx.2 (hz ▸ e ▸ hy)⟩
  refine ⟨seg_append.mpr ?_, hnd⟩
  rcases List.eq_nil_or_concat' xs with rfl | ⟨ws, a, rfl⟩
  · rw [show L.prev h = h from hr.seg.2]
    exact ⟨insertBetween_left, insertBetween_right hxh hxh⟩
  · obtain ⟨hws, hah⟩ := seg_append.mp hr.seg
    have hxa : x ≠ a := fun e => hx (by simp [e])
    rw [hah.2]
    refine ⟨seg_append.mpr ⟨hws.imp ?_, insertBetween_left⟩, insertBetween_right hxh hxa⟩
    intro u hu v hv huv
    have hau : a ∉ h :: ws := by
      have := hr.nodup
      rw [← List.cons_append, List.nodup_append] at this
      exact fun hm => this.2.2 a hm a (by simp) rfl
    refine Adj.insertBetween hah huv (fun e => hau (e ▸ hu)) ?_ ?_
    · rintro rfl
      exact hx (by simpa using List.mem_cons.mp hu |>.imp_right Or.inl)
    · rintro rfl
      exact hx (List.mem_cons_of_mem h hv)

/-- Every adjacency that does not leave `a` or enter `b` survives. -/
theorem Adj.joinOver {L : Links α} {a b u v : α} (huv : L.Adj u v) (hu : u ≠ a) (hv : v ≠ b) :
    (L.joinOver a b).Adj u v := by
  simp [Links.joinOver, Adj, hu, hv, huv.1, huv.2]

theorem joinOver_adj (L : Links α) (a b : α) : (L.joinOver a b).Adj a b := by
  simp [joinOver, Adj]

theorem IsRing.remove {L : Links α} {h x : α} {ys zs : List α}
    (hr : L.IsRing h (ys ++ x :: zs)) : (L.joinOver (L.prev x) (L.next x)).IsRing h (ys ++ zs) := by
  obtain ⟨hl, hz⟩ := seg_append.mp hr.seg
  have hnd : (h :: (ys ++ zs)).Nodup := by
    refine hr.nodup.sublist (List.Sublist.cons_cons h ?_)
    exact (List.Sublist.refl ys).append (List.sublist_cons_self x zs)
  refine ⟨?_, hnd⟩
  have hall := hr.nodup
  -- the neighbour on the left is the last of `h :: ys`, the one on the right the first of `zs ++ [h]`
  rcases List.eq_nil_or_concat' ys with rfl | ⟨ws, a, rfl⟩
  · rcases zs with _ | ⟨b, ts⟩
    · rw [hl.2, hz.1]
      exact joinOver_adj L h h
    · rw [hl.2, hz.1.1]
      refine ⟨joinOver_adj L h b, hz.2.imp ?_⟩
      intro u hu v hv huv
      simp only [List.nil_append, List.nodup_cons, List.mem_cons, not_or] at hall hu
      refine huv.joinOver ?_ ?_
      · rintro rfl
        rcases hu with rfl | hu
        · exact hall.1.2.1 rfl
        · exact hall.1.2.2 hu
      · rintro rfl
        rcases List.mem_append.mp hv with hv | hv
        · exact hall.2.2.1 hv
        · exact hall.1.2.1 (List.mem_singleton.mp hv).symm
  · obtain ⟨hws, hax⟩ := seg_append.mp hl
    have hha : ∀ u ∈ h :: ws, u ≠ a := by
      intro u hu e
      have := hall
      rw [List.append_assoc, ← List.cons_append, List.nodup_append] at this
      exact this.2.2 u hu a (by simp) e
    rcases zs with _ | ⟨b, ts⟩
    · rw [hax.2, hz.1, List.append_nil]
      refine seg_append.mpr ⟨hws.imp ?_, joinOver_adj L a h⟩
      intro u hu v hv huv
      refine huv.joinOver (hha u hu) ?_
      rintro rfl
      exact (List.nodup_cons.mp hall).1 (List.mem_append_left _ hv)
    · rw [hax.2, hz.1.1]
      have hb : b ∉ h :: (ws ++ [a]) := by
        have := hall
        rw [← List.cons_append, List.nodup_append] at this
        exact fun hm => this.2.2 b hm b (by simp) rfl
      refine seg_append.mpr ⟨seg_append.mpr ⟨hws.imp ?_, joinOver_adj L a b⟩, hz.2.imp ?_⟩
      · intro u hu v hv huv
        refine huv.joinOver (hha u hu) ?_
        rintro rfl
        exact hb (List.mem_cons_of_mem h hv)
      · intro u hu v hv huv
        have hts := hall
        rw [← List.cons_append, List.nodup_append] at hts
        refine huv.joinOver ?_ ?_
        · rintro rfl
          exact hts.2.2 u (by simp) u (List.mem_cons_of_mem x hu) rfl
        · rintro rfl
          rcases List.mem_append.mp hv with hv | hv
          · simp only [List.nodup_cons, List.mem_cons, not_or] at hts
            exact hts.2.1.2.1 hv
          · exact hb (by simp [List.mem_singleton.mp hv])

end writing

end Links
end Ring
