import Mathlib.Tactic

/-! Rules for counted loops, loops that may diverge, and runs of a partial step
function. The state and event types are arbitrary; each rule packages one
induction so that a client only proves what a single step preserves. -/
namespace Execution

variable {σ ε : Type*}

/-- `for (i = 0; i < n; ++i) s = f i s`. -/
def loop (f : Nat → σ → σ) : Nat → σ → σ
  | 0, s => s
  | n + 1, s => f n (loop f n s)

theorem loop_invariant {f : Nat → σ → σ} (P : Nat → σ → Prop) {s : σ} {n : Nat} (h0 : P 0 s)
    (hstep : ∀ k < n, ∀ t, P k t → P (k + 1) (f k t)) : P n (loop f n s) := by
  induction n with
  | zero => exact h0
  | succ n ih =>
      exact hstep n (Nat.lt_succ_self n) _ (ih fun k hk => hstep k (Nat.lt_succ_of_lt hk))

/-- Where a loop stands after a bounded number of iterations. -/
inductive Outcome (σ : Type*) where
  | done (s : σ)
  | fault
  | running (s : σ)
  deriving DecidableEq, Repr

/-- At most `fuel` iterations of `while (cond s) s = body s`. -/
def whileFuel (cond : σ → Bool) (body : σ → Option σ) : Nat → σ → Outcome σ
  | 0, s => if cond s then .running s else .done s
  | fuel + 1, s =>
      if cond s then
        match body s with
        | some t => whileFuel cond body fuel t
        | none => .fault
      else .done s

/-- A body that keeps the invariant and lowers the variant brings the loop to its end. -/
theorem whileFuel_done {cond : σ → Bool} {body : σ → Option σ} (P : σ → Prop) (m : σ → Nat)
    (hbody : ∀ s, P s → cond s = true → ∃ t, body s = some t ∧ P t ∧ m t < m s)
    {fuel : Nat} {s : σ} (hs : P s) (hfuel : m s ≤ fuel) :
    ∃ t, whileFuel cond body fuel s = .done t ∧ P t ∧ cond t = false := by
  induction fuel generalizing s with
  | zero =>
      cases hc : cond s with
      | false => exact ⟨s, by simp [whileFuel, hc], hs, hc⟩
      | true =>
          obtain ⟨t, _, _, hlt⟩ := hbody s hs hc
          omega
  | succ fuel ih =>
      cases hc : cond s with
      | false => exact ⟨s, by simp [whileFuel, hc], hs, hc⟩
      | true =>
          obtain ⟨t, ht, hP, hlt⟩ := hbody s hs hc
          obtain ⟨u, hu, hPu, hcu⟩ := ih hP (by omega)
          exact ⟨u, by simp [whileFuel, hc, ht, hu], hPu, hcu⟩

/-- What the body preserves holds where the loop ends. -/
theorem whileFuel_preserves {cond : σ → Bool} {body : σ → Option σ} (P : σ → Prop)
    (hbody : ∀ s t, P s → cond s = true → body s = some t → P t) {fuel : Nat} {s t : σ} (hs : P s)
    (hdone : whileFuel cond body fuel s = .done t) : P t := by
  induction fuel generalizing s with
  | zero =>
      unfold whileFuel at hdone
      split at hdone
      · contradiction
      · exact Outcome.done.inj hdone ▸ hs
  | succ fuel ih =>
      unfold whileFuel at hdone
      split at hdone
      case isTrue hc =>
        cases hb : body s with
        | none =>
            rw [hb] at hdone
            contradiction
        | some u =>
            rw [hb] at hdone
            exact ih (hbody s u hs hc hb) hdone
      case isFalse => exact Outcome.done.inj hdone ▸ hs

/-- A loop whose condition stays true never finishes: it faults or is still running. -/
theorem whileFuel_not_done {cond : σ → Bool} {body : σ → Option σ} (P : σ → Prop)
    (hcond : ∀ s, P s → cond s = true) (hbody : ∀ s t, P s → body s = some t → P t)
    (fuel : Nat) {s : σ} (hs : P s) (u : σ) : whileFuel cond body fuel s ≠ .done u := by
  induction fuel generalizing s with
  | zero => simp [whileFuel, hcond s hs]
  | succ fuel ih =>
      simp only [whileFuel, hcond s hs, if_true]
      cases hb : body s with
      | none => exact nofun
      | some t => exact ih (hbody s t hs hb)

/-- A loop whose first iteration faults does not finish. -/
theorem whileFuel_not_done_of_none {cond : σ → Bool} {body : σ → Option σ} {s : σ}
    (hcond : cond s = true) (hbody : body s = none) (fuel : Nat) (u : σ) :
    whileFuel cond body fuel s ≠ .done u := by
  refine whileFuel_not_done (· = s) (fun _ e => e ▸ hcond) ?_ fuel rfl u
  rintro _ t rfl ht
  rw [hbody] at ht
  contradiction

section runs
variable (step : σ → ε → Option σ)

/-- A run, stopped at the first step that is undefined. -/
def run : σ → List ε → Option σ
  | s, [] => some s
  | s, e :: es => (step s e).bind fun t => run t es

/-- Every step of the run meets `guard` in the state it starts from. The run is not
required to be defined: that is for a theorem to establish. -/
def Guarded (guard : σ → ε → Prop) : σ → List ε → Prop
  | _, [] => True
  | s, e :: es => guard s e ∧ match step s e with
      | some t => Guarded guard t es
      | none => True

instance Guarded.decidable (guard : σ → ε → Prop) [∀ s e, Decidable (guard s e)] :
    ∀ (s : σ) (es : List ε), Decidable (Guarded step guard s es)
  | _, [] => isTrue trivial
  | s, e :: es => by
      unfold Guarded
      cases step s e with
      | none => exact inferInstanceAs (Decidable (guard s e ∧ True))
      | some t =>
          have := Guarded.decidable guard t es
          exact inferInstanceAs (Decidable (guard s e ∧ Guarded step guard t es))

variable {step}

theorem run_append (s : σ) (es es' : List ε) :
    run step s (es ++ es') = (run step s es).bind fun t => run step t es' := by
  induction es generalizing s with
  | nil => rfl
  | cons e es ih => simp only [List.cons_append, run, ih, Option.bind_assoc]

/-- If every guarded step from a good state is defined and leads to a good state,
every guarded run is defined and ends in one. -/
theorem run_invariant {guard : σ → ε → Prop} (P : σ → Prop)
    (hstep : ∀ s e, P s → guard s e → ∃ t, step s e = some t ∧ P t)
    {s : σ} {es : List ε} (hs : P s) (hg : Guarded step guard s es) :
    ∃ t, run step s es = some t ∧ P t := by
  induction es generalizing s with
  | nil => exact ⟨s, rfl, hs⟩
  | cons e es ih =>
      obtain ⟨t, ht, hP⟩ := hstep s e hs hg.1
      have hrest := hg.2
      rw [ht] at hrest
      obtain ⟨u, hu, hPu⟩ := ih hP hrest
      exact ⟨u, by simp only [run, ht, Option.bind_some, hu], hPu⟩

/-- What every guarded step preserves, every guarded run preserves as far as it is defined. -/
theorem run_guarded {guard : σ → ε → Prop} (P : σ → Prop)
    (hstep : ∀ s e t, P s → guard s e → step s e = some t → P t)
    {s t : σ} {es : List ε} (hs : P s) (hg : Guarded step guard s es) (hrun : run step s es = some t) :
    P t := by
  induction es generalizing s with
  | nil => exact Option.some.inj hrun ▸ hs
  | cons e es ih =>
      obtain ⟨u, hu, hrest⟩ := Option.bind_eq_some_iff.mp hrun
      obtain ⟨hguard, hguards⟩ := hg
      rw [hu] at hguards
      exact ih (hstep s e u hs hguard hu) hguards hrest

/-- An abstract state that follows every guarded step follows every guarded run. -/
theorem run_follows {τ : Type*} {guard : σ → ε → Prop} {next : τ → ε → τ} (R : τ → σ → Prop)
    (hstep : ∀ a s e, R a s → guard s e → ∃ t, step s e = some t ∧ R (next a e) t)
    {a : τ} {s : σ} {es : List ε} (hs : R a s) (hg : Guarded step guard s es) :
    ∃ t, run step s es = some t ∧ R (es.foldl next a) t := by
  induction es generalizing a s with
  | nil => exact ⟨s, rfl, hs⟩
  | cons e es ih =>
      obtain ⟨t, ht, hR⟩ := hstep a s e hs hg.1
      have hrest := hg.2
      rw [ht] at hrest
      obtain ⟨u, hu, hRu⟩ := ih hR hrest
      exact ⟨u, by simp only [run, ht, Option.bind_some, hu], hRu⟩

/-- Where every step that the abstract state allows is defined and keeps the relation, every run that it
allows is defined and ends in related states. -/
theorem run_simulates {τ : Type*} {guard : τ → ε → Prop} {next : τ → ε → τ} (R : τ → σ → Prop)
    (hstep : ∀ a s e, R a s → guard a e → ∃ t, step s e = some t ∧ R (next a e) t) {a : τ} {s : σ} {es : List ε}
    (hs : R a s) (hg : Guarded (fun a e => some (next a e)) guard a es) :
    ∃ t, run step s es = some t ∧ R (es.foldl next a) t := by
  induction es generalizing a s with
  | nil => exact ⟨s, rfl, hs⟩
  | cons e es ih =>
      obtain ⟨t, ht, hR⟩ := hstep a s e hs hg.1
      obtain ⟨u, hu, hRu⟩ := ih hR hg.2
      exact ⟨u, by simp only [run, ht, Option.bind_some, hu], hRu⟩

/-- What every defined step preserves, every defined run preserves. -/
theorem run_preserves (P : σ → Prop) (hstep : ∀ s e t, P s → step s e = some t → P t)
    {s t : σ} {es : List ε} (hs : P s) (hrun : run step s es = some t) : P t := by
  induction es generalizing s with
  | nil => exact Option.some.inj hrun ▸ hs
  | cons e es ih =>
      obtain ⟨u, hu, hrest⟩ := Option.bind_eq_some_iff.mp hrun
      exact ih (hstep s e u hs hu) hrest

theorem guarded_of_forall {guard : σ → ε → Prop} {es : List ε} (h : ∀ e ∈ es, ∀ s, guard s e) (s : σ) :
    Guarded step guard s es := by
  induction es generalizing s with
  | nil => trivial
  | cons e es ih =>
      refine ⟨h e List.mem_cons_self s, ?_⟩
      cases step s e with
      | none => trivial
      | some t => exact ih (fun e' he' => h e' (List.mem_cons_of_mem e he')) t

theorem Guarded.last {guard : σ → ε → Prop} {s : σ} {es : List ε} {e : ε}
    (hg : Guarded step guard s (es ++ [e])) :
    Guarded step guard s es ∧ ∀ t, run step s es = some t → guard t e := by
  induction es generalizing s with
  | nil => exact ⟨trivial, fun t ht => Option.some.inj ht ▸ hg.1⟩
  | cons a es ih =>
      obtain ⟨hguard, hrest⟩ := hg
      cases hstep : step s a with
      | none =>
          refine ⟨⟨hguard, by rw [hstep]; trivial⟩, ?_⟩
          intro t ht
          rw [run, hstep] at ht
          contradiction
      | some u =>
          rw [hstep] at hrest
          obtain ⟨hinit, hlast⟩ := ih hrest
          refine ⟨⟨hguard, by rw [hstep]; exact hinit⟩, ?_⟩
          intro t ht
          rw [run, hstep, Option.bind_some] at ht
          exact hlast t ht

/-- If from a good state the guard decides whether a step leads to a good state or to one
without the property, the property holds all along a run exactly when its steps meet the
guard. -/
theorem holds_along_iff {guard : σ → ε → Prop} (good P : σ → Prop) (hgood : ∀ s, good s → P s)
    (hstep : ∀ s e t, good s → step s e = some t → (guard s e → good t) ∧ (P t → guard s e))
    {s t : σ} {es : List ε} (hs : good s) (hrun : run step s es = some t) :
    (∀ es' t', es' <+: es → run step s es' = some t' → P t') ↔ Guarded step guard s es := by
  induction es generalizing s with
  | nil =>
      constructor
      · intro _
        trivial
      · intro _ es' t' hpre hrun'
        rw [List.prefix_nil.mp hpre] at hrun'
        exact Option.some.inj hrun' ▸ hgood s hs
  | cons e es ih =>
      obtain ⟨u, hu, hrest⟩ := Option.bind_eq_some_iff.mp hrun
      obtain ⟨hkeep, hneed⟩ := hstep s e u hs hu
      constructor
      · intro hall
        have hguard := hneed (hall [e] u (by simp) (by simp [run, hu]))
        refine ⟨hguard, ?_⟩
        rw [hu]
        apply (ih (hkeep hguard) hrest).mp
        intro es' t' hpre hrun'
        exact hall (e :: es') t' (List.cons_prefix_cons.mpr ⟨rfl, hpre⟩) (by simp [run, hu, hrun'])
      · rintro ⟨hguard, hguards⟩ es' t' hpre hrun'
        rw [hu] at hguards
        cases es' with
        | nil => exact Option.some.inj hrun' ▸ hgood s hs
        | cons e' es' =>
            obtain ⟨rfl, hpre'⟩ := List.cons_prefix_cons.mp hpre
            obtain ⟨u', hu', hrest'⟩ := Option.bind_eq_some_iff.mp hrun'
            obtain rfl := Option.some.inj (hu.symm.trans hu')
            exact (ih (hkeep hguard) hrest).mpr hguards es' t' hpre' hrest'

/-- Every step of the run is defined and has the property. -/
def Along (step : σ → ε → Option σ) (Q : σ → ε → σ → Prop) : σ → List ε → Prop
  | _, [] => True
  | s, e :: es => ∃ t, step s e = some t ∧ Q s e t ∧ Along step Q t es

theorem Along.run_isSome {Q : σ → ε → σ → Prop} {s : σ} {es : List ε} (h : Along step Q s es) :
    (run step s es).isSome = true := by
  induction es generalizing s with
  | nil => rfl
  | cons e es ih =>
      obtain ⟨t, ht, -, hrest⟩ := h
      rw [run, ht, Option.bind_some]
      exact ih hrest

/-- If among fair steps the guard decides which are defined and have the property, and keeps the
state good, a fair run has the property all along exactly when its steps meet the guard. -/
theorem along_iff_guarded {fair guard : σ → ε → Prop} {Q : σ → ε → σ → Prop} (good : σ → Prop)
    (hstep : ∀ s e, good s → fair s e → ((∃ t, step s e = some t ∧ Q s e t) ↔ guard s e) ∧
      ∀ t, guard s e → step s e = some t → good t)
    {s : σ} {es : List ε} (hs : good s) (hfair : Guarded step fair s es) :
    Along step Q s es ↔ Guarded step guard s es := by
  induction es generalizing s with
  | nil => exact Iff.rfl
  | cons e es ih =>
      obtain ⟨hfirst, hrest⟩ := hfair
      obtain ⟨hdecides, hgood⟩ := hstep s e hs hfirst
      constructor
      · rintro ⟨t, ht, hprop, halong⟩
        have hguard := hdecides.mp ⟨t, ht, hprop⟩
        rw [ht] at hrest
        refine ⟨hguard, ?_⟩
        rw [ht]
        exact (ih (hgood t hguard ht) hrest).mp halong
      · rintro ⟨hguard, hguards⟩
        obtain ⟨t, ht, hprop⟩ := hdecides.mpr hguard
        rw [ht] at hrest hguards
        exact ⟨t, ht, hprop, (ih (hgood t hguard ht) hrest).mpr hguards⟩

/-- The same where fair steps are always defined. -/
theorem along_iff {fair guard : σ → ε → Prop} {Q : σ → ε → σ → Prop} (good : σ → Prop)
    (hstep : ∀ s e, good s → fair s e →
      ∃ t, step s e = some t ∧ (Q s e t ↔ guard s e) ∧ (guard s e → good t))
    {s : σ} {es : List ε} (hs : good s) (hfair : Guarded step fair s es) :
    Along step Q s es ↔ Guarded step guard s es := by
  refine along_iff_guarded good (fun s e hs hfair => ?_) hs hfair
  obtain ⟨t, ht, hQ, hgood⟩ := hstep s e hs hfair
  constructor
  · constructor
    · rintro ⟨u, hu, hprop⟩
      obtain rfl := Option.some.inj (ht.symm.trans hu)
      exact hQ.mp hprop
    · exact fun hguard => ⟨t, ht, hQ.mpr hguard⟩
  · intro u hguard hu
    obtain rfl := Option.some.inj (ht.symm.trans hu)
    exact hgood hguard

end runs
end Execution
