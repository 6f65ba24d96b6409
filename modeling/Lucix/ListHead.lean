import Lucix.Ring

/-! The list operations of `include/lucix/list.h`, over the link fields of an
arbitrary node type. Arguments keep the source's order `(new, head)`; calls in
the kernel that swap the two are modelled as they stand, and the two `swapped`
lemmas say what they do. -/
namespace Lucix
open Ring

variable {α : Type*} [DecidableEq α]

/-- The macro `INIT_LIST_HEAD`. -/
def initListHead (L : Links α) (ptr : α) : Links α := (L.setNext ptr ptr).setPrev ptr ptr

/-- The function `__list_add`, with its four stores in order. -/
def listAddBetween (L : Links α) (new prev next : α) : Links α :=
  let L := L.setPrev next new
  let L := L.setNext new next
  let L := L.setPrev new prev
  L.setNext prev new

def listAdd (L : Links α) (new head : α) : Links α := listAddBetween L new head (L.next head)

def listAddTail (L : Links α) (new head : α) : Links α := listAddBetween L new (L.prev head) head

/-- The function `__list_del`. -/
def listDelBetween (L : Links α) (prev next : α) : Links α :=
  let L := L.setPrev next prev
  L.setNext prev next

def listDelInit (L : Links α) (entry : α) : Links α :=
  initListHead (listDelBetween L (L.prev entry) (L.next entry)) entry

/-- The function `list_del`, which leaves the two poison pointers behind. -/
def listDel (L : Links α) (entry poison1 poison2 : α) : Links α :=
  ((listDelBetween L (L.prev entry) (L.next entry)).setNext entry poison1).setPrev entry poison2

def listEmpty (L : Links α) (head : α) : Bool := decide (L.next head = head)

theorem listEmpty_iff {L : Links α} {h : α} {xs : List α} (hr : L.IsRing h xs) :
    listEmpty L h = true ↔ xs = [] := by
  rw [listEmpty, decide_eq_true_iff]
  exact hr.empty_iff

theorem listAdd_ring {L : Links α} {h x : α} {xs : List α} (hr : L.IsRing h xs)
    (hx : x ∉ h :: xs) : (listAdd L x h).IsRing h (x :: xs) := hr.insert_head hx

theorem listAddTail_ring {L : Links α} {h x : α} {xs : List α} (hr : L.IsRing h xs)
    (hx : x ∉ h :: xs) : (listAddTail L x h).IsRing h (xs ++ [x]) := hr.insert_tail hx

/-- Called with head and entry swapped, `list_add` makes the entry the only member of
the list, whatever the list held before. -/
theorem listAdd_swapped {L : Links α} {h p : α} (hp : L.SelfLinked p) (hne : h ≠ p) :
    (listAdd L h p).IsRing h [p] :=
  (listAdd_ring (Links.isRing_nil.mpr hp) (by simpa using hne)).swap

theorem listAddTail_swapped {L : Links α} {h p : α} (hp : L.SelfLinked p) (hne : h ≠ p) :
    (listAddTail L h p).IsRing h [p] :=
  (listAddTail_ring (Links.isRing_nil.mpr hp) (by simpa using hne)).swap

theorem listAdd_frame {L : Links α} {h x n : α} {xs : List α} (hr : L.IsRing h xs)
    (hn : n ∉ h :: xs) (hx : n ≠ x) :
    (listAdd L x h).next n = L.next n ∧ (listAdd L x h).prev n = L.prev n := by
  have hh : n ≠ h := fun e => hn (by simp [e])
  have hnext : n ≠ L.next h := fun e => hn (e ▸ hr.next_mem (by simp))
  simp [listAdd, listAddBetween, hh, hx, hnext]

theorem listAddTail_frame {L : Links α} {h x n : α} {xs : List α} (hr : L.IsRing h xs)
    (hn : n ∉ h :: xs) (hx : n ≠ x) :
    (listAddTail L x h).next n = L.next n ∧ (listAddTail L x h).prev n = L.prev n := by
  have hh : n ≠ h := fun e => hn (by simp [e])
  have hprev : n ≠ L.prev h := fun e => hn (e ▸ hr.prev_mem (by simp))
  simp [listAddTail, listAddBetween, hh, hx, hprev]

section frame
variable {L : Links α} {h p n : α}

theorem listAdd_swapped_frame (hp : L.SelfLinked p) (hh : n ≠ h) (hn : n ≠ p) :
    (listAdd L h p).next n = L.next n ∧ (listAdd L h p).prev n = L.prev n := by
  simp [listAdd, listAddBetween, hp.1, hh, hn]

theorem listAddTail_swapped_frame (hp : L.SelfLinked p) (hh : n ≠ h) (hn : n ≠ p) :
    (listAddTail L h p).next n = L.next n ∧ (listAddTail L h p).prev n = L.prev n := by
  simp [listAddTail, listAddBetween, hp.2, hh, hn]

end frame

theorem initListHead_selfLinked (L : Links α) (p : α) : (initListHead L p).SelfLinked p := by
  simp [initListHead, Links.SelfLinked, Links.Adj]

theorem initListHead_frame {L : Links α} {p n : α} (hn : n ≠ p) :
    (initListHead L p).next n = L.next n ∧ (initListHead L p).prev n = L.prev n := by
  simp [initListHead, hn]

/-! ### Links that agree on some nodes -/

section agree
variable {D : α → Prop} {L M : Links α}

theorem agreeOn_listAddBetween (h : L.AgreeOn D M) (new prev next : α) :
    (listAddBetween L new prev next).AgreeOn D (listAddBetween M new prev next) :=
  (((h.setPrev next new).setNext new next).setPrev new prev).setNext prev new

theorem agreeOn_listAdd (h : L.AgreeOn D M) (new : α) {head : α} (hhead : D head) :
    (listAdd L new head).AgreeOn D (listAdd M new head) := by
  rw [listAdd, listAdd, (h head hhead).1]
  exact agreeOn_listAddBetween h new head _

theorem agreeOn_listDelBetween (h : L.AgreeOn D M) {entry : α} (hentry : D entry) :
    (listDelBetween L (L.prev entry) (L.next entry)).AgreeOn D
      (listDelBetween M (M.prev entry) (M.next entry)) := by
  rw [(h entry hentry).1, (h entry hentry).2]
  exact (h.setPrev _ _).setNext _ _

theorem agreeOn_listDelInit (h : L.AgreeOn D M) {entry : α} (hentry : D entry) :
    (listDelInit L entry).AgreeOn D (listDelInit M entry) :=
  ((agreeOn_listDelBetween h hentry).setNext entry entry).setPrev entry entry

theorem agreeOn_listDel (h : L.AgreeOn D M) {entry : α} (hentry : D entry) (poison1 poison2 : α) :
    (listDel L entry poison1 poison2).AgreeOn D (listDel M entry poison1 poison2) :=
  ((agreeOn_listDelBetween h hentry).setNext entry poison1).setPrev entry poison2

end agree

/-- Deleting a node that is on no list changes nothing. -/
theorem listDelInit_selfLinked {L : Links α} {p : α} (hp : L.SelfLinked p) :
    listDelInit L p = L := by
  have hn : ∀ n, (listDelInit L p).next n = L.next n := by
    intro n
    by_cases h : n = p
    · subst h; simp [listDelInit, initListHead, hp.1]
    · simp [listDelInit, initListHead, listDelBetween, hp.2, h]
  have hq : ∀ n, (listDelInit L p).prev n = L.prev n := by
    intro n
    by_cases h : n = p
    · subst h; simp [listDelInit, initListHead, hp.2]
    · simp [listDelInit, initListHead, listDelBetween, hp.1, h]
  cases hL : listDelInit L p with
  | mk next prev =>
      rw [hL] at hn hq
      cases L with
      | mk next' prev' => exact congrArg₂ Links.mk (funext hn) (funext hq)

theorem listDelInit_ring {L : Links α} {h x : α} {ys zs : List α}
    (hr : L.IsRing h (ys ++ x :: zs)) : (listDelInit L x).IsRing h (ys ++ zs) := by
  have hx : x ∉ h :: (ys ++ zs) := by
    have := hr.nodup
    simp only [List.nodup_cons, List.nodup_middle, List.mem_append, List.mem_cons, not_or] at this ⊢
    exact ⟨fun e => this.1.2.1 e.symm, this.2.1⟩
  have hne : ∀ n ∈ h :: (ys ++ zs), n ≠ x := by
    rintro n hn rfl
    exact hx hn
  exact hr.remove.congr (fun n hn => (initListHead_frame (hne n hn)).1)
    (fun n hn => (initListHead_frame (hne n hn)).2)

theorem listDelInit_self (L : Links α) (x : α) : (listDelInit L x).SelfLinked x :=
  initListHead_selfLinked _ x

theorem listDelInit_frame {L : Links α} {h x n : α} {xs : List α} (hr : L.IsRing h xs)
    (hx : x ∈ xs) (hn : n ∉ h :: xs) :
    (listDelInit L x).next n = L.next n ∧ (listDelInit L x).prev n = L.prev n := by
  have hxn : n ≠ x := fun e => hn (List.mem_cons_of_mem h (e ▸ hx))
  have hnext : n ≠ L.next x := fun e => hn (e ▸ hr.next_mem (List.mem_cons_of_mem h hx))
  have hprev : n ≠ L.prev x := fun e => hn (e ▸ hr.prev_mem (List.mem_cons_of_mem h hx))
  simp [listDelInit, initListHead, listDelBetween, hxn, hnext, hprev]

/-- The poison is gone as soon as the entry is on a list again. -/
theorem listAdd_listDel (L : Links α) {x h : α} (hne : h ≠ x) (p q : α) :
    listAdd (listDel L x p q) x h = listAdd (listDelInit L x) x h := by
  have hhead : (listDel L x p q).next h = (listDelInit L x).next h := by
    simp [listDel, listDelInit, initListHead, hne]
  have hnext : (listAdd (listDel L x p q) x h).next = (listAdd (listDelInit L x) x h).next := by
    funext n
    by_cases hn : n = x
    · simp [listAdd, listAddBetween, hhead, hn]
    · simp [listAdd, listAddBetween, hn, listDel, listDelInit, initListHead]
  have hprev : (listAdd (listDel L x p q) x h).prev = (listAdd (listDelInit L x) x h).prev := by
    funext n
    by_cases hn : n = x
    · simp [listAdd, listAddBetween, hn]
    · simp [listAdd, listAddBetween, hn, hne, listDel, listDelInit, initListHead]
  cases hl : listAdd (listDel L x p q) x h
  cases hr : listAdd (listDelInit L x) x h
  rw [hl, hr] at hnext hprev
  exact congrArg₂ Links.mk hnext hprev

section family
variable {ι : Type*} [DecidableEq ι] {L : Links α} {head : ι → α} {lists : ι → List α}

theorem rings_listDelInit (h : L.Rings head lists) {i : ι} {x : α} (hx : x ∈ lists i) :
    (listDelInit L x).Rings head (Function.update lists i ((lists i).erase x)) ∧
      ∀ j, x ∉ head j :: Function.update lists i ((lists i).erase x) j := by
  have hr := h.ring i
  have hnd := List.nodup_cons.mp hr.nodup
  have hsub : ∀ j, ∀ n ∈ head j :: Function.update lists i ((lists i).erase x) j,
      n ∈ head j :: lists j := by
    intro j n hn
    by_cases hj : j = i
    · subst hj
      rw [Function.update_self] at hn
      rcases List.mem_cons.mp hn with rfl | hn
      · simp
      · exact List.mem_cons_of_mem _ (List.mem_of_mem_erase hn)
    · rwa [Function.update_of_ne hj] at hn
  refine ⟨⟨fun j => ?_, fun j k n hj hk => h.apart j k n (hsub j n hj) (hsub k n hk)⟩, fun j hj => ?_⟩
  · by_cases hj : j = i
    · subst hj
      obtain ⟨ys, zs, _, hsplit, herase⟩ := List.exists_erase_eq hx
      rw [Function.update_self, herase]
      exact listDelInit_ring (hsplit ▸ hr)
    · rw [Function.update_of_ne hj]
      have hframe : ∀ n ∈ head j :: lists j, n ∉ head i :: lists i := fun n hn hm =>
        hj (h.apart j i n hn hm)
      exact (h.ring j).congr (fun n hn => (listDelInit_frame hr hx (hframe n hn)).1)
        (fun n hn => (listDelInit_frame hr hx (hframe n hn)).2)
  · have hji := h.apart j i x (hsub j x hj) (List.mem_cons_of_mem _ hx)
    subst hji
    rw [Function.update_self] at hj
    rcases List.mem_cons.mp hj with rfl | hj
    · exact hnd.1 hx
    · exact hnd.2.not_mem_erase hj

theorem rings_listAdd (h : L.Rings head lists) {x : α} (hx : ∀ j, x ∉ head j :: lists j) (i : ι) :
    (listAdd L x (head i)).Rings head (Function.update lists i (x :: lists i)) := by
  have hsub : ∀ j, ∀ n ∈ head j :: Function.update lists i (x :: lists i) j,
      n ∈ head j :: lists j ∨ n = x ∧ j = i := by
    intro j n hn
    by_cases hj : j = i
    · subst hj
      rw [Function.update_self] at hn
      rcases List.mem_cons.mp hn with rfl | hn
      · exact .inl (by simp)
      · rcases List.mem_cons.mp hn with rfl | hn
        · exact .inr ⟨rfl, rfl⟩
        · exact .inl (List.mem_cons_of_mem _ hn)
    · rw [Function.update_of_ne hj] at hn
      exact .inl hn
  refine ⟨fun j => ?_, fun j k n hj hk => ?_⟩
  · by_cases hj : j = i
    · subst hj
      rw [Function.update_self]
      exact listAdd_ring (h.ring j) (hx j)
    · rw [Function.update_of_ne hj]
      have hframe : ∀ n ∈ head j :: lists j, n ∉ head i :: lists i := fun n hn hm =>
        hj (h.apart j i n hn hm)
      have hne : ∀ n ∈ head j :: lists j, n ≠ x := fun n hn e => hx j (e ▸ hn)
      exact (h.ring j).congr (fun n hn => (listAdd_frame (h.ring i) (hframe n hn) (hne n hn)).1)
        (fun n hn => (listAdd_frame (h.ring i) (hframe n hn) (hne n hn)).2)
  · rcases hsub j n hj with hold | ⟨hnx, hji⟩
    · rcases hsub k n hk with hold' | ⟨hnx, -⟩
      · exact h.apart j k n hold hold'
      · exact absurd (hnx ▸ hold) (hx j)
    · rcases hsub k n hk with hold' | ⟨-, hki⟩
      · exact absurd (hnx ▸ hold') (hx k)
      · exact hji.trans hki.symm

end family
end Lucix
