import Lucix.RadixTable

/-! Walking tables of tables in which a word may end the walk early. What a word says
depends on its level, the number of indices that are still to come: nothing, a
further table, or a value. Tables that are labelled by the indices that lead to them
form a tree; linking a cleared table changes no walk, and storing a value changes
the walks through its word only. -/
namespace RadixWalk
open RadixTable (store store_self store_of_ne)

inductive Slot (α V : Type*) where
  | absent
  | table (t : α)
  | value (v : V)

structure Coding (α W V : Type*) where
  read : Nat → W → Slot α V
  empty : W
  link : α → W
  Valid : α → Prop
  read_empty : ∀ n, read n empty = .absent
  read_link : ∀ n u, Valid u → read (n + 1) (link u) = .table u

variable {α ι W V : Type*} (C : Coding α W V)

/-- The value that the indices lead to, with the indices that were not used. -/
def walk (mem : α → ι → W) : α → List ι → Option (V × List ι)
  | _, [] => none
  | t, i :: path =>
      match C.read path.length (mem t i) with
      | .absent => none
      | .table u => walk mem u path
      | .value v => some (v, path)

/-- The table that the first of `n` indices lead to. -/
def reach (mem : α → ι → W) : Nat → α → List ι → Option α
  | _, t, [] => some t
  | n, t, i :: path =>
      match C.read (n - 1) (mem t i) with
      | .table u => reach mem (n - 1) u path
      | _ => none

/-- Tables stand where the indices lead, in a tree of `n` levels. -/
structure Tree (n : Nat) (mem : α → ι → W) (pos : α → Option (List ι)) : Prop where
  valid : ∀ t p, pos t = some p → C.Valid t
  below : ∀ t p i u, pos t = some p → C.read (n - 1 - p.length) (mem t i) = .table u →
    pos u = some (p ++ [i])

variable {C} {mem mem' : α → ι → W} {pos : α → Option (List ι)} {n : Nat} {t u v fresh : α}
  {p q r : List ι} {i j : ι} {w : W} {x : V}

theorem walk_cons (mem : α → ι → W) (t : α) (i : ι) (q : List ι) :
    walk C mem t (i :: q) =
      match C.read q.length (mem t i) with
      | .absent => none
      | .table u => walk C mem u q
      | .value v => some (v, q) := rfl

theorem walk_of_cleared (hempty : ∀ j, mem t j = C.empty) (q : List ι) : walk C mem t q = none := by
  cases q with
  | nil => rfl
  | cons i q => rw [walk_cons, hempty, C.read_empty]

theorem walk_length_lt (hwalk : walk C mem t q = some (x, r)) : r.length < q.length := by
  induction q generalizing t with
  | nil => contradiction
  | cons i q ih =>
      rw [walk_cons] at hwalk
      cases hread : C.read q.length (mem t i) with
      | absent =>
          rw [hread] at hwalk
          contradiction
      | table u =>
          rw [hread] at hwalk
          exact (ih hwalk).trans (Nat.lt_succ_self _)
      | value y =>
          rw [hread, Option.some.injEq, Prod.mk.injEq] at hwalk
          rw [← hwalk.2]
          exact Nat.lt_succ_self _

theorem walk_append (h : reach C mem (p.length + q.length) t p = some u) :
    walk C mem t (p ++ q) = walk C mem u q := by
  induction p generalizing t with
  | nil =>
      obtain rfl := Option.some.inj h
      rfl
  | cons i p ih =>
      have hlevel : (i :: p).length + q.length - 1 = (p ++ q).length := by
        simp only [List.length_cons, List.length_append]
        omega
      rw [reach, hlevel] at h
      rw [List.cons_append, walk_cons]
      cases hread : C.read (p ++ q).length (mem t i) with
      | absent =>
          rw [hread] at h
          contradiction
      | value x =>
          rw [hread] at h
          contradiction
      | table v =>
          rw [hread] at h
          apply ih
          rwa [List.length_append] at h

theorem reach_append (mem : α → ι → W) (n : Nat) (t : α) (p q : List ι) :
    reach C mem n t (p ++ q) = (reach C mem n t p).bind fun u => reach C mem (n - p.length) u q := by
  induction p generalizing n t with
  | nil => rfl
  | cons i p ih =>
      simp only [List.cons_append, reach]
      cases C.read (n - 1) (mem t i) with
      | absent => rfl
      | value x => rfl
      | table v =>
          dsimp only
          rw [ih, List.length_cons, Nat.sub_sub, Nat.add_comm 1]

theorem ne_of_pos (ht : pos t = some p) (hu : pos u = none) : t ≠ u := by
  rintro rfl
  rw [ht] at hu
  contradiction

theorem Tree.reach_pos (h : Tree C n mem pos) (ht : pos t = some r)
    (hu : reach C mem (n - r.length) t p = some u) : pos u = some (r ++ p) := by
  induction p generalizing t r with
  | nil =>
      obtain rfl := Option.some.inj hu
      rwa [List.append_nil]
  | cons i p ih =>
      have hlevel : n - r.length - 1 = n - 1 - r.length := by omega
      rw [reach, hlevel] at hu
      cases hread : C.read (n - 1 - r.length) (mem t i) with
      | absent => simp [hread] at hu
      | value x => simp [hread] at hu
      | table v =>
          rw [hread] at hu
          have hv := h.below t r i v ht hread
          have hnext : n - 1 - r.length = n - (r ++ [i]).length := by
            simp only [List.length_append, List.length_singleton]
            omega
          dsimp only at hu
          rw [hnext] at hu
          have hpos := ih hv hu
          rwa [List.append_assoc] at hpos

section updates
variable [DecidableEq α] [DecidableEq ι]

/-- A cleared table is linked. -/
def attach (C : Coding α W V) (mem : α → ι → W) (t : α) (i : ι) (fresh : α) : α → ι → W :=
  store (Function.update mem fresh fun _ => C.empty) t i (C.link fresh)

theorem attach_of_ne (hu : u ≠ fresh) (hne : u ≠ t ∨ j ≠ i) :
    attach C mem t i fresh u j = mem u j := by
  rw [attach, store_of_ne hne, Function.update_of_ne hu]

theorem attach_self : attach C mem t i fresh t i = C.link fresh := store_self

theorem attach_fresh (hne : t ≠ fresh) : attach C mem t i fresh fresh j = C.empty := by
  rw [attach, store_of_ne (.inl hne.symm), Function.update_self]

theorem Tree.attach (h : Tree C n mem pos) (ht : pos t = some p) (hfresh : pos fresh = none)
    (hvalid : C.Valid fresh) (hlevel : p.length + 1 < n) :
    Tree C n (attach C mem t i fresh) (Function.update pos fresh (some (p ++ [i]))) where
  valid := by
    intro u r hr
    by_cases hu : u = fresh
    · exact hu ▸ hvalid
    · rw [Function.update_of_ne hu] at hr
      exact h.valid u r hr
  below := by
    intro u r j v hr hread
    have hne : t ≠ fresh := ne_of_pos ht hfresh
    by_cases hu : u = fresh
    · -- the new table holds no links yet
      rw [hu, attach_fresh hne, C.read_empty] at hread
      contradiction
    · rw [Function.update_of_ne hu] at hr
      by_cases hentry : u = t ∧ j = i
      · obtain ⟨rfl, rfl⟩ := hentry
        obtain rfl : p = r := Option.some.inj (ht.symm.trans hr)
        obtain ⟨k, hk⟩ : ∃ k, n - 1 - p.length = k + 1 := ⟨n - 2 - p.length, by omega⟩
        rw [attach_self, hk, C.read_link k fresh hvalid, Slot.table.injEq] at hread
        rw [← hread, Function.update_self]
      · rw [attach_of_ne hu (not_and_or.mp hentry)] at hread
        have hv := h.below u r j v hr hread
        rw [Function.update_of_ne (ne_of_pos hv hfresh), hv]

theorem Tree.walk_attach (h : Tree C n mem pos) (ht : pos t = some p) (hfresh : pos fresh = none)
    (hvalid : C.Valid fresh) (habsent : C.read (n - 1 - p.length) (mem t i) = .absent)
    (hlevel : p.length + 1 < n) (hu : pos u = some r) (hlen : r.length + q.length = n) :
    walk C (RadixWalk.attach C mem t i fresh) u q = walk C mem u q := by
  induction q generalizing u r with
  | nil => rfl
  | cons j q ih =>
      rw [List.length_cons] at hlen
      have hne : t ≠ fresh := ne_of_pos ht hfresh
      have hq : q.length = n - 1 - r.length := by omega
      rw [walk_cons, walk_cons]
      by_cases hentry : u = t ∧ j = i
      · obtain ⟨rfl, rfl⟩ := hentry
        obtain rfl : p = r := Option.some.inj (ht.symm.trans hu)
        obtain ⟨k, hk⟩ : ∃ k, n - 1 - p.length = k + 1 := ⟨n - 2 - p.length, by omega⟩
        rw [hq, habsent, attach_self, hk, C.read_link k fresh hvalid]
        exact walk_of_cleared (fun _ => attach_fresh hne) q
      · rw [attach_of_ne (ne_of_pos hu hfresh) (not_and_or.mp hentry)]
        cases hread : C.read q.length (mem u j) with
        | absent => rfl
        | value x => rfl
        | table v =>
            refine ih (h.below u r j v hu (hq ▸ hread)) ?_
            simp only [List.length_append, List.length_singleton]
            omega

theorem Tree.reach_attach (h : Tree C n mem pos) (ht : pos t = some p) (hfresh : pos fresh = none)
    (habsent : C.read (n - 1 - p.length) (mem t i) = .absent) (hu : pos u = some r)
    (hv : reach C mem (n - r.length) u q = some v) :
    reach C (RadixWalk.attach C mem t i fresh) (n - r.length) u q = some v := by
  induction q generalizing u r with
  | nil => exact hv
  | cons j q ih =>
      have hlevel : n - r.length - 1 = n - 1 - r.length := by omega
      rw [reach, hlevel] at hv ⊢
      have hsame : RadixWalk.attach C mem t i fresh u j = mem u j := by
        apply attach_of_ne (ne_of_pos hu hfresh)
        by_contra hentry
        obtain ⟨rfl, rfl⟩ : u = t ∧ j = i := by tauto
        obtain rfl : p = r := Option.some.inj (ht.symm.trans hu)
        rw [habsent] at hv
        contradiction
      rw [hsame]
      cases hread : C.read (n - 1 - r.length) (mem u j) with
      | absent => simp [hread] at hv
      | value x => simp [hread] at hv
      | table c =>
          rw [hread] at hv
          have hnext : n - 1 - r.length = n - (r ++ [j]).length := by
            simp only [List.length_append, List.length_singleton]
            omega
          dsimp only at hv ⊢
          rw [hnext] at hv ⊢
          exact ih (h.below u r j c hu hread) hv

theorem Tree.store (h : Tree C n mem pos)
    (hvalue : ∀ p, pos t = some p → C.read (n - 1 - p.length) w = .value x) :
    Tree C n (store mem t i w) pos where
  valid := h.valid
  below := by
    intro u r j v hr hread
    by_cases hentry : u = t ∧ j = i
    · obtain ⟨rfl, rfl⟩ := hentry
      rw [store_self, hvalue r hr] at hread
      contradiction
    · rw [store_of_ne (not_and_or.mp hentry)] at hread
      exact h.below u r j v hr hread

/-- A stored word is not seen by indices that do not lead through it. -/
theorem Tree.walk_store_of_ne (h : Tree C n mem pos) (hu : pos u = some r)
    (hlen : r.length + q.length = n) (hne : ∀ p, pos t = some p → ¬ p ++ [i] <+: r ++ q) :
    walk C (RadixTable.store mem t i w) u q = walk C mem u q := by
  induction q generalizing u r with
  | nil => rfl
  | cons j q ih =>
      rw [List.length_cons] at hlen
      have hsame : RadixTable.store mem t i w u j = mem u j := by
        apply store_of_ne
        by_contra hentry
        obtain ⟨rfl, rfl⟩ : u = t ∧ j = i := by tauto
        apply hne r hu
        simp
      rw [walk_cons, walk_cons, hsame]
      cases hread : C.read q.length (mem u j) with
      | absent => rfl
      | value x => rfl
      | table v =>
          have hq : q.length = n - 1 - r.length := by omega
          apply ih (h.below u r j v hu (hq ▸ hread))
          · simp only [List.length_append, List.length_singleton]
            omega
          · simpa using hne

theorem Tree.reach_store_of_ne (h : Tree C n mem pos) (hu : pos u = some r)
    (hne : ∀ p, pos t = some p → ¬ p ++ [i] <+: r ++ q) :
    reach C (RadixTable.store mem t i w) (n - r.length) u q = reach C mem (n - r.length) u q := by
  induction q generalizing u r with
  | nil => rfl
  | cons j q ih =>
      have hsame : RadixTable.store mem t i w u j = mem u j := by
        apply store_of_ne
        by_contra hentry
        obtain ⟨rfl, rfl⟩ : u = t ∧ j = i := by tauto
        apply hne r hu
        simp
      have hlevel : n - r.length - 1 = n - 1 - r.length := by omega
      rw [reach, reach, hsame, hlevel]
      cases hread : C.read (n - 1 - r.length) (mem u j) with
      | absent => rfl
      | value x => rfl
      | table v =>
          have hnext : n - 1 - r.length = n - (r ++ [j]).length := by
            simp only [List.length_append, List.length_singleton]
            omega
          dsimp only
          rw [hnext]
          exact ih (h.below u r j v hu hread) (by simpa using hne)

theorem Tree.walk_store_self (h : Tree C n mem pos) (hu : pos u = some []) (ht : reach C mem n u p = some t)
    (hlen : p.length + (q.length + 1) = n) (hvalue : C.read q.length w = .value x) :
    walk C (RadixTable.store mem t i w) u (p ++ i :: q) = some (x, q) := by
  have hpos : pos t = some p := h.reach_pos hu (by simpa using ht)
  have hkeep : reach C (RadixTable.store mem t i w) n u p = some t := by
    have hsame := h.reach_store_of_ne (t := t) (w := w) (i := i) (q := p) hu (by
      intro p' hp' hpre
      obtain rfl : p = p' := Option.some.inj (hpos.symm.trans hp')
      have hle := hpre.length_le
      simp at hle)
    simp only [List.length_nil, Nat.sub_zero] at hsame
    rw [hsame, ht]
  rw [walk_append (u := t) (by rw [List.length_cons, hlen, hkeep]), walk_cons, store_self, hvalue]

end updates
end RadixWalk
