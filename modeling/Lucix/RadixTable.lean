import Mathlib.Tactic

/-! Tables of tables. A table is an array of words at an address, and a word may link
to a further table. A labelling gives every table its position in the forest, so no
table stands at two positions; following links, adding tables on demand and storing
leaf words are then described by what they do at each position. -/
namespace RadixTable

/-- How a word says that there is no further table, and how it links to one. -/
structure Format (α W : Type*) where
  empty : W
  link : α → W
  target : W → Option α
  Valid : α → Prop
  target_empty : target empty = none
  target_link : ∀ u, Valid u → target (link u) = some u

/-- The positions below a position, and which entries of a table are links. -/
structure Shape (P ι : Type*) where
  below : P → ι → P
  inner : P → ι → Prop

variable {α ι W P : Type*}

section words
variable [DecidableEq α] [DecidableEq ι]

def store (mem : α → ι → W) (t : α) (i : ι) (w : W) : α → ι → W :=
  Function.update mem t (Function.update (mem t) i w)

variable {mem : α → ι → W} {t u : α} {i j : ι} {w : W}

@[simp] theorem store_self : store mem t i w t i = w := by
  simp [store]

theorem store_of_ne (h : u ≠ t ∨ j ≠ i) : store mem t i w u j = mem u j := by
  by_cases hu : u = t
  · subst hu
    have hj : j ≠ i := h.resolve_left fun hne => hne rfl
    simp [store, hj]
  · simp [store, hu]

end words

variable (F : Format α W) (S : Shape P ι)

def clear [DecidableEq α] (mem : α → ι → W) (t : α) : α → ι → W := Function.update mem t fun _ => F.empty

/-- The table behind an entry; a cleared one is linked if there is none. -/
def descend [DecidableEq α] [DecidableEq ι] (mem : α → ι → W) (t : α) (i : ι) (fresh : α) : α × (α → ι → W) :=
  match F.target (mem t i) with
  | some u => (u, mem)
  | none => (fresh, store (clear F mem fresh) t i (F.link fresh))

/-- The table that a path of indices leads to. -/
def reach (mem : α → ι → W) : α → List ι → Option α
  | t, [] => some t
  | t, i :: path => (F.target (mem t i)).bind fun u => reach mem u path

/-- The word at the end of a path, empty where the path breaks off. -/
def leaf (mem : α → ι → W) (t : α) (path : List ι) (j : ι) : W :=
  match reach F mem t path with
  | some u => mem u j
  | none => F.empty

/-- The position that a path leads to. -/
def Shape.at : P → List ι → P := List.foldl S.below

/-- Every entry on the path is a link. -/
def Shape.Inner : P → List ι → Prop
  | _, [] => True
  | p, i :: path => S.inner p i ∧ Shape.Inner (S.below p i) path

/-- The path leads through links to a table without links. -/
def Shape.Full (p : P) (path : List ι) : Prop := S.Inner p path ∧ ∀ j, ¬ S.inner (S.at p path) j

/-- The entries that are read on the way, by position. -/
def Shape.On : P → List ι → P → ι → Prop
  | _, [], _, _ => False
  | p, i :: path, q, j => q = p ∧ j = i ∨ Shape.On (S.below p i) path q j

/-- Links lead to the table at the position below. -/
structure Labelled (mem : α → ι → W) (pos : α → Option P) : Prop where
  valid : ∀ t p, pos t = some p → F.Valid t
  entries : ∀ t p i, pos t = some p → S.inner p i →
    F.target (mem t i) = none ∨ ∃ u, mem t i = F.link u ∧ pos u = some (S.below p i)

variable {F S} {mem mem' : α → ι → W} {pos pos' : α → Option P} {t u fresh : α} {p q : P}
  {i j : ι} {path : List ι} {w : W}

theorem ne_of_pos (ht : pos t = some p) (hu : pos u = none) : t ≠ u := by
  rintro rfl
  rw [ht] at hu
  contradiction

theorem entry_ne (ht : pos t = some p) (hi : S.inner p i) (hu : pos u = some q)
    (hj : ¬ S.inner q j) : t ≠ u ∨ i ≠ j := by
  by_contra hsame
  obtain ⟨rfl, rfl⟩ : t = u ∧ i = j := by tauto
  obtain rfl : p = q := Option.some.inj (ht.symm.trans hu)
  exact hj hi

section reach

theorem Labelled.target (h : Labelled F S mem pos) (ht : pos t = some p) (hi : S.inner p i)
    (hu : F.target (mem t i) = some u) : mem t i = F.link u ∧ pos u = some (S.below p i) := by
  rcases h.entries t p i ht hi with hnone | ⟨v, hlink, hv⟩
  · rw [hnone] at hu
    contradiction
  · rw [hlink, F.target_link v (h.valid v _ hv)] at hu
    obtain rfl := Option.some.inj hu
    exact ⟨hlink, hv⟩

/-- A path leads to a table at its position. -/
theorem Labelled.reach_pos (h : Labelled F S mem pos) (ht : pos t = some p) (hpath : S.Inner p path)
    (hu : reach F mem t path = some u) : pos u = some (S.at p path) := by
  induction path generalizing t p with
  | nil => exact Option.some.inj hu ▸ ht
  | cons i path ih =>
      obtain ⟨v, hv, hrest⟩ := Option.bind_eq_some_iff.mp hu
      exact ih (h.target ht hpath.1 hv).2 hpath.2 hrest

theorem reach_append (mem : α → ι → W) (t : α) (path path' : List ι) :
    reach F mem t (path ++ path') = (reach F mem t path).bind fun u => reach F mem u path' := by
  induction path generalizing t with
  | nil => rfl
  | cons i path ih =>
      rw [List.cons_append, reach, reach, Option.bind_assoc]
      simp only [ih]

theorem leaf_cons (mem : α → ι → W) (t : α) (i : ι) (path : List ι) (j : ι) :
    leaf F mem t (i :: path) j =
      match F.target (mem t i) with
      | some u => leaf F mem u path j
      | none => F.empty := by
  rw [leaf, reach]
  cases F.target (mem t i) <;> rfl

theorem leaf_cons_none (h : F.target (mem t i) = none) : leaf F mem t (i :: path) j = F.empty := by
  rw [leaf_cons, h]

theorem leaf_cons_some (h : F.target (mem t i) = some u) :
    leaf F mem t (i :: path) j = leaf F mem u path j := by
  rw [leaf_cons, h]

theorem leaf_of_cleared (hempty : ∀ j, mem t j = F.empty) (path : List ι) (j : ι) :
    leaf F mem t path j = F.empty := by
  cases path with
  | nil => exact hempty j
  | cons i path => rw [leaf_cons, hempty i, F.target_empty]

theorem Labelled.leaf_congr (h : Labelled F S mem pos)
    (hsame : ∀ v r, pos v = some r → mem' v = mem v) (ht : pos t = some p)
    (hpath : S.Inner p path) (j : ι) : leaf F mem' t path j = leaf F mem t path j := by
  induction path generalizing t p with
  | nil =>
      show mem' t j = mem t j
      rw [hsame t p ht]
  | cons i path ih =>
      rw [leaf_cons, leaf_cons, hsame t p ht]
      cases htarget : F.target (mem t i) with
      | none => rfl
      | some v => exact ih (h.target ht hpath.1 htarget).2 hpath.2

end reach

section descend
variable [DecidableEq α] [DecidableEq ι]

theorem descend_of_some (h : F.target (mem t i) = some u) : descend F mem t i fresh = (u, mem) := by
  rw [RadixTable.descend, h]

theorem descend_of_none (h : F.target (mem t i) = none) :
    descend F mem t i fresh = (fresh, store (clear F mem fresh) t i (F.link fresh)) := by
  rw [RadixTable.descend, h]

theorem descend_frame (hu : F.target (mem t i) = none → u ≠ fresh) (hne : u ≠ t ∨ j ≠ i) :
    (descend F mem t i fresh).2 u j = mem u j := by
  cases htarget : F.target (mem t i) with
  | some v => rw [descend_of_some htarget]
  | none =>
      rw [descend_of_none htarget]
      dsimp only
      rw [store_of_ne hne]
      simp [clear, hu htarget]

theorem Labelled.link (h : Labelled F S mem pos) (ht : pos t = some p) (hfresh : pos fresh = none)
    (hvalid : F.Valid fresh) :
    Labelled F S (RadixTable.store (clear F mem fresh) t i (F.link fresh))
      (Function.update pos fresh (some (S.below p i))) where
  valid := by
    intro u q hq
    by_cases hu : u = fresh
    · exact hu ▸ hvalid
    · rw [Function.update_of_ne hu] at hq
      exact h.valid u q hq
  entries := by
    intro u q k hq hk
    have hne : t ≠ fresh := ne_of_pos ht hfresh
    by_cases hu : u = fresh
    · -- the new table holds no links yet
      left
      rw [store_of_ne (.inl (hu ▸ hne.symm)), hu]
      simp [clear, F.target_empty]
    · rw [Function.update_of_ne hu] at hq
      by_cases hentry : u = t ∧ k = i
      · obtain ⟨rfl, rfl⟩ := hentry
        obtain rfl : p = q := Option.some.inj (ht.symm.trans hq)
        exact .inr ⟨fresh, by simp, by simp⟩
      · rw [store_of_ne (not_and_or.mp hentry)]
        simp only [clear, Function.update_of_ne hu]
        rcases h.entries u q k hq hk with hempty | ⟨v, hlink, hv⟩
        · exact .inl hempty
        · refine .inr ⟨v, hlink, ?_⟩
          rw [Function.update_of_ne (ne_of_pos hv hfresh), hv]

theorem Labelled.descend (h : Labelled F S mem pos) (ht : pos t = some p) (hi : S.inner p i)
    (hfresh : F.target (mem t i) = none → pos fresh = none ∧ F.Valid fresh) :
    ∃ pos', Labelled F S (descend F mem t i fresh).2 pos' ∧
      pos' (descend F mem t i fresh).1 = some (S.below p i) ∧
      (descend F mem t i fresh).2 t i = F.link (descend F mem t i fresh).1 ∧
      (∀ u q, pos u = some q → pos' u = some q) ∧
      ∀ u, pos u = none → u ≠ fresh ∨ F.target (mem t i) ≠ none → pos' u = none := by
  cases htarget : F.target (mem t i) with
  | some u =>
      obtain ⟨hlink, hu⟩ := h.target ht hi htarget
      rw [descend_of_some htarget]
      exact ⟨pos, h, hu, hlink, fun _ _ hq => hq, fun _ hu _ => hu⟩
  | none =>
      obtain ⟨hnone, hvalid⟩ := hfresh htarget
      rw [descend_of_none htarget]
      refine ⟨Function.update pos fresh (some (S.below p i)), h.link ht hnone hvalid, by simp, by simp,
        ?_, ?_⟩
      · intro u q hq
        rw [Function.update_of_ne (ne_of_pos hq hnone), hq]
      · intro u hu hne
        rw [Function.update_of_ne (hne.resolve_right fun hsome => hsome rfl), hu]

/-- `descend` only ever adds links. -/
theorem Labelled.reach_descend (h : Labelled F S mem pos)
    (hfresh : F.target (mem t i) = none → pos fresh = none)
    (hu : pos u = some q) (hpath : S.Inner q path) {v : α} (hv : reach F mem u path = some v) :
    reach F (RadixTable.descend F mem t i fresh).2 u path = some v := by
  induction path generalizing u q with
  | nil => exact hv
  | cons k path ih =>
      obtain ⟨x, hx, hrest⟩ := Option.bind_eq_some_iff.mp hv
      have hsame : (RadixTable.descend F mem t i fresh).2 u k = mem u k := by
        by_cases hentry : u = t ∧ k = i
        · obtain ⟨rfl, rfl⟩ := hentry
          rw [descend_of_some hx]
        · exact descend_frame (fun hnone => ne_of_pos hu (hfresh hnone)) (not_and_or.mp hentry)
      rw [reach, hsame, hx, Option.bind_some]
      exact ih (h.target hu hpath.1 hx).2 hpath.2 hrest

theorem Labelled.leaf_descend (h : Labelled F S mem pos) (ht : pos t = some p) (hi : S.inner p i)
    (hfresh : F.target (mem t i) = none → pos fresh = none ∧ F.Valid fresh) (hu : pos u = some q)
    (hpath : S.Full q path) (j : ι) :
    leaf F (RadixTable.descend F mem t i fresh).2 u path j = leaf F mem u path j := by
  induction path generalizing u q with
  | nil =>
      apply descend_frame fun hnone => ne_of_pos hu (hfresh hnone).1
      exact (entry_ne ht hi hu (hpath.2 j)).imp Ne.symm Ne.symm
  | cons k path ih =>
      obtain ⟨⟨hk, hinner⟩, hfull⟩ := hpath
      by_cases hentry : u = t ∧ k = i
      · obtain ⟨rfl, rfl⟩ := hentry
        cases htarget : F.target (mem u k) with
        | some v => rw [descend_of_some htarget]
        | none =>
            obtain ⟨hnone, hvalid⟩ := hfresh htarget
            have hnew : F.target ((RadixTable.descend F mem u k fresh).2 u k) = some fresh := by
              rw [descend_of_none htarget]
              dsimp only
              rw [store_self, F.target_link fresh hvalid]
            rw [leaf_cons_none htarget, leaf_cons_some hnew]
            apply leaf_of_cleared
            intro l
            rw [descend_of_none htarget]
            dsimp only
            rw [store_of_ne (.inl (ne_of_pos hu hnone).symm)]
            simp [clear]
      · have hsame : (RadixTable.descend F mem t i fresh).2 u k = mem u k :=
          descend_frame (fun hnone => ne_of_pos hu (hfresh hnone).1) (not_and_or.mp hentry)
        rw [leaf_cons, leaf_cons, hsame]
        cases htarget : F.target (mem u k) with
        | none => rfl
        | some v => exact ih (h.target hu hk htarget).2 ⟨hinner, hfull⟩

end descend

section store
variable [DecidableEq α] [DecidableEq ι]

theorem Labelled.store (h : Labelled F S mem pos) (hu : pos u = some q) (hleaf : ¬ S.inner q j)
    (w : W) : Labelled F S (store mem u j w) pos where
  valid := h.valid
  entries := by
    intro t p i ht hi
    rw [store_of_ne (entry_ne ht hi hu hleaf)]
    exact h.entries t p i ht hi

theorem Labelled.reach_store (h : Labelled F S mem pos) (hu : pos u = some q)
    (hleaf : ¬ S.inner q j) (w : W) (ht : pos t = some p) (hpath : S.Inner p path) :
    reach F (RadixTable.store mem u j w) t path = reach F mem t path := by
  induction path generalizing t p with
  | nil => rfl
  | cons i path ih =>
      rw [reach, reach, store_of_ne (entry_ne ht hpath.1 hu hleaf)]
      cases htarget : F.target (mem t i) with
      | none => rfl
      | some v => exact ih (h.target ht hpath.1 htarget).2 hpath.2

/-- Storing a leaf word is seen on the path to its table and nowhere else. -/
theorem Labelled.leaf_store (h : Labelled F S mem pos) (hu : pos u = some q)
    (hleaf : ¬ S.inner q j) (w : W) (ht : pos t = some p) (hpath : S.Inner p path) (k : ι) :
    leaf F (RadixTable.store mem u j w) t path k =
      if reach F mem t path = some u ∧ k = j then w else leaf F mem t path k := by
  unfold leaf
  rw [h.reach_store hu hleaf w ht hpath]
  cases hreach : reach F mem t path with
  | none => simp
  | some v =>
      by_cases hsame : v = u ∧ k = j
      · obtain ⟨rfl, rfl⟩ := hsame
        simp
      · have hcond : ¬ (some v = some u ∧ k = j) := by simpa using hsame
        rw [if_neg hcond]
        exact store_of_ne (not_and_or.mp hsame)

end store
end RadixTable
