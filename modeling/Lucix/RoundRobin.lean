import Mathlib.Tactic
import Mathlib.Data.List.Nodup

/-! Taking turns. The members of a queue have their turn one after the other, from the
last one back to the first, while new members may join at the end. -/
namespace RoundRobin

variable {α : Type*}

/-- A queue and the place in it of the member whose turn it is. -/
structure Turn (α : Type*) where
  queue : List α
  pos : Nat
  lt : pos < queue.length

inductive Act (α : Type*) where
  | join (a : α)
  | next

namespace Turn

def now (t : Turn α) : α := t.queue.get ⟨t.pos, t.lt⟩

def join (t : Turn α) (a : α) : Turn α where
  queue := t.queue ++ [a]
  pos := t.pos
  lt := by
    rw [List.length_append]
    exact Nat.lt_add_right _ t.lt

@[simp] theorem join_now (t : Turn α) (a : α) : (t.join a).now = t.now :=
  List.getElem_append_left t.lt

def next (t : Turn α) : Turn α where
  queue := t.queue
  pos := if t.pos + 1 = t.queue.length then 0 else t.pos + 1
  lt := by
    have hlt := t.lt
    split_ifs with hlast
    · exact Nat.zero_lt_of_lt hlt
    · omega

def act (t : Turn α) : Act α → Turn α
  | .join a => t.join a
  | .next => t.next

/-- The members whose turn starts during the acts, in order. -/
def selected (t : Turn α) : List (Act α) → List α
  | [] => []
  | .join a :: acts => (t.join a).selected acts
  | .next :: acts => t.next.now :: t.next.selected acts

/-- The members that join during the acts. -/
def joined : List (Act α) → List α
  | [] => []
  | .join a :: acts => a :: joined acts
  | .next :: acts => joined acts

theorem foldl_queue (t : Turn α) (acts : List (Act α)) :
    (acts.foldl act t).queue = t.queue ++ joined acts := by
  induction acts generalizing t with
  | nil => exact (List.append_nil _).symm
  | cons a acts ih =>
      cases a with
      | join a =>
          rw [List.foldl_cons, ih]
          exact List.append_assoc t.queue [a] (joined acts)
      | next =>
          rw [List.foldl_cons, ih]
          rfl

/-- Without new members, `k` turns move the place by `k` around the queue. -/
theorem iterate_next (t : Turn α) (k : Nat) :
    (next^[k] t).queue = t.queue ∧ (next^[k] t).pos = (t.pos + k) % t.queue.length := by
  induction k with
  | zero => exact ⟨rfl, (Nat.mod_eq_of_lt t.lt).symm⟩
  | succ k ih =>
      obtain ⟨hqueue, hpos⟩ := ih
      rw [Function.iterate_succ_apply']
      refine ⟨hqueue, ?_⟩
      have hlt := (next^[k] t).lt
      simp only [next]
      rw [hqueue] at hlt ⊢
      rw [hpos] at hlt ⊢
      have hstep : (t.pos + (k + 1)) % t.queue.length = ((t.pos + k) % t.queue.length + 1) % t.queue.length := by
        rw [Nat.mod_add_mod, Nat.add_assoc]
      rw [hstep]
      split_ifs with hlast
      · rw [hlast, Nat.mod_self]
      · exact (Nat.mod_eq_of_lt (by omega)).symm

/-! ### Between two turns of the same member -/

section interval
variable {t : Turn α} {a u : α} {p q n c : Nat}

theorem now_eq_iff (hnodup : t.queue.Nodup) (hq : t.queue[q]? = some u) : t.now = u ↔ t.pos = q := by
  obtain ⟨hlt, hget⟩ := List.getElem?_eq_some_iff.mp hq
  rw [← hget]
  exact hnodup.getElem_inj_iff

/-- Since the turn of the member at `p`, with `n` members then, the member at `q` has had `c`
turns. In the second case the queue had `m` members when the turn went back to the first. -/
def Since (p n q c : Nat) (t : Turn α) : Prop :=
  (p ≤ t.pos ∧ n ≤ t.queue.length ∧ c = if p < q ∧ q ≤ t.pos then 1 else 0) ∨
    (t.pos < p ∧ p < t.queue.length ∧ ∃ m, n ≤ m ∧ m ≤ t.queue.length ∧
      c = if (p < q ∧ q < m) ∨ q ≤ t.pos then 1 else 0)

theorem Since.join (h : Since p n q c t) (a : α) : Since p n q c (t.join a) := by
  have hlen : (t.join a).queue.length = t.queue.length + 1 := List.length_append
  rcases h with ⟨hpos, hn, hc⟩ | ⟨hpos, hp, m, hn, hm, hc⟩
  · exact .inl ⟨hpos, by omega, hc⟩
  · exact .inr ⟨hpos, by omega, m, hn, by omega, hc⟩

theorem Since.next (h : Since p n q c t) (hqn : q < n) (hne : t.next.pos ≠ p) :
    Since p n q (c + if t.next.pos = q then 1 else 0) t.next := by
  have hlt := t.lt
  have hpos : t.next.pos = if t.pos + 1 = t.queue.length then 0 else t.pos + 1 := rfl
  have hqueue : t.next.queue = t.queue := rfl
  rw [hpos] at hne
  unfold Since
  rw [hqueue, hpos]
  rcases h with ⟨hle, hn, rfl⟩ | ⟨hle, hp, m, hn, hm, rfl⟩
  · by_cases hlast : t.pos + 1 = t.queue.length
    · rw [if_pos hlast] at hne ⊢
      refine .inr ⟨by omega, by omega, t.queue.length, hn, Nat.le_refl _, ?_⟩
      split_ifs <;> omega
    · rw [if_neg hlast] at hne ⊢
      refine .inl ⟨by omega, hn, ?_⟩
      split_ifs <;> omega
  · rw [if_neg (by omega : t.pos + 1 ≠ t.queue.length)] at hne ⊢
    refine .inr ⟨by omega, hp, m, hn, hm, ?_⟩
    split_ifs <;> omega

/-- When the turn comes back to the member at `p`, every other member has had one. -/
theorem Since.back (h : Since p n q c t) (hback : t.next.pos = p) (hqn : q < n) (hqp : q ≠ p) : c = 1 := by
  have hlt := t.lt
  have hpos : t.next.pos = if t.pos + 1 = t.queue.length then 0 else t.pos + 1 := rfl
  rw [hpos] at hback
  rcases h with ⟨hle, hn, rfl⟩ | ⟨hle, hp, m, hn, hm, rfl⟩
  · by_cases hlast : t.pos + 1 = t.queue.length
    · rw [if_pos hlast] at hback
      exact if_pos ⟨by omega, by omega⟩
    · rw [if_neg hlast] at hback
      omega
  · rw [if_neg (by omega : t.pos + 1 ≠ t.queue.length)] at hback
    exact if_pos (by omega)

variable [DecidableEq α]

theorem Since.run {acts : List (Act α)} (h : Since p n q c t) (hqn : q < n)
    (hnodup : (t.queue ++ joined acts).Nodup) (hp : t.queue[p]? = some a) (hq : t.queue[q]? = some u)
    (ha : a ∉ t.selected acts) : Since p n q (c + (t.selected acts).count u) (acts.foldl act t) := by
  induction acts generalizing t c with
  | nil => exact h
  | cons e acts ih =>
      cases e with
      | join b =>
          have hgrow : ∀ {j : Nat} {b' : α}, t.queue[j]? = some b' → (t.join b).queue[j]? = some b' :=
            fun hj => List.getElem?_append_left (List.getElem?_eq_some_iff.mp hj).1 ▸ hj
          refine ih (h.join b) ?_ (hgrow hp) (hgrow hq) ha
          show (t.queue ++ [b] ++ joined acts).Nodup
          rw [List.append_assoc]
          exact hnodup
      | next =>
          have hqueue : t.next.queue.Nodup := (List.nodup_append.mp hnodup).1
          rw [selected, List.mem_cons, not_or] at ha
          obtain ⟨hnow, hrest⟩ := ha
          have hne : t.next.pos ≠ p := fun heq => hnow ((now_eq_iff hqueue hp).mpr heq).symm
          have hcount : c + (t.selected (.next :: acts)).count u =
              c + (if t.next.pos = q then 1 else 0) + (t.next.selected acts).count u := by
            rw [selected, List.count_cons, Nat.add_assoc, Nat.add_comm (List.count u _)]
            simp only [beq_iff_eq, now_eq_iff hqueue hq]
          rw [hcount]
          exact ih (h.next hqn hne) hnodup hp hq hrest

/-- Between two turns of a member, every other member that was there at the first has one. -/
theorem selected_once {acts : List (Act α)} (hnodup : (t.queue ++ joined acts).Nodup)
    (hnone : t.now ∉ t.selected acts) (hback : (acts.foldl act t).next.now = t.now)
    (hu : u ∈ t.queue) (hne : u ≠ t.now) : (t.selected acts).count u = 1 := by
  obtain ⟨q, hq⟩ := List.mem_iff_getElem?.mp hu
  have hqn := (List.getElem?_eq_some_iff.mp hq).1
  have hp : t.queue[t.pos]? = some t.now := List.getElem?_eq_getElem t.lt
  have hstart : Since t.pos t.queue.length q 0 t :=
    .inl ⟨Nat.le_refl _, Nat.le_refl _, (if_neg (by omega)).symm⟩
  have hend := hstart.run hqn hnodup hp hq hnone
  rw [Nat.zero_add] at hend
  have hqueue := foldl_queue t acts
  have hp' : (acts.foldl act t).next.queue[t.pos]? = some t.now := by
    show (acts.foldl act t).queue[t.pos]? = some t.now
    rw [hqueue, List.getElem?_append_left t.lt]
    exact hp
  refine hend.back ((now_eq_iff ?_ hp').mp hback) hqn ?_
  · show (acts.foldl act t).queue.Nodup
    rw [hqueue]
    exact hnodup
  · rintro rfl
    exact hne (Option.some.inj (hq.symm.trans hp))

end interval

end Turn
end RoundRobin
