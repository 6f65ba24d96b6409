import Lucix.Execution

/-! Components that take turns. A system that answers every call as the component alone
would, gives each component the answers of its own run, whatever the order in which the
calls of the components come. -/
namespace Execution

variable {σ α ι ε ρ : Type*}

section answers
variable (step : σ → ε → Option (ρ × σ))

/-- A run with its answers. -/
def answers : σ → List ε → Option (List ρ × σ)
  | s, [] => some ([], s)
  | s, e :: es => (step s e).bind fun r => (answers r.2 es).map fun rest => (r.1 :: rest.1, rest.2)

/-- The step without its answer. -/
def silent (s : σ) (e : ε) : Option σ := (step s e).map Prod.snd

end answers

theorem answers_agree {step : σ → ε → Option (ρ × σ)} {step' : α → ε → Option (ρ × α)} {R : σ → α → Prop}
    {guard : σ → ε → Prop} (hstep : ∀ s a e, R s a → guard s e → ∃ r x s', step' a e = some (r, x) ∧
      step s e = some (r, s') ∧ R s' x)
    {s : σ} {a : α} {es : List ε} (hR : R s a) (hguard : Guarded (silent step) guard s es) :
    ∃ rs t b, answers step s es = some (rs, t) ∧ answers step' a es = some (rs, b) ∧ R t b := by
  induction es generalizing s a with
  | nil => exact ⟨[], s, a, rfl, rfl, hR⟩
  | cons e es ih =>
      obtain ⟨r, x, s', hx, hs', hR'⟩ := hstep s a e hR hguard.1
      have hrest := hguard.2
      rw [silent, hs'] at hrest
      obtain ⟨rs, t, b, hrun, hrun', hRt⟩ := ih hR' hrest
      refine ⟨r :: rs, t, b, ?_, ?_, hRt⟩
      · simp [answers, hs', hrun]
      · simp [answers, hx, hrun']

/-- The step of a system, with the name of the component that is answered. -/
def labelled (step : σ → ι × ε → Option (ρ × σ)) (s : σ) (call : ι × ε) : Option ((ι × ρ) × σ) :=
  (step s call).map fun r => ((call.1, r.1), r.2)

/-- What belongs to one component, in order. -/
def only [DecidableEq ι] (k : ι) (calls : List (ι × ε)) : List ε :=
  (calls.filter fun call => decide (call.1 = k)).map Prod.snd

section only
variable [DecidableEq ι]

@[simp] theorem only_cons_self (k : ι) (e : ε) (calls : List (ι × ε)) :
    only k ((k, e) :: calls) = e :: only k calls := by
  simp [only]

theorem only_cons_of_ne {j k : ι} (h : j ≠ k) (e : ε) (calls : List (ι × ε)) :
    only j ((k, e) :: calls) = only j calls := by
  simp [only, Ne.symm h]

/-- If every step keeps a relation to the components and to their answers so far, and shows the answer of the
one that called, every run does. -/
theorem answers_recorded {τ : Type*} {gstep : σ → ι × ε → Option (τ × σ)} {step : α → ε → Option (ρ × α)}
    {view : ρ → τ} {R : List (ι × ρ) → σ → (ι → α) → Prop} {allowed : α → ε → Prop} {room : σ → ι × ε → Prop}
    (hstep : ∀ past s a k e, R past s a → allowed (a k) e → room s (k, e) → ∃ r x s', step (a k) e = some (r, x) ∧
      gstep s (k, e) = some (view r, s') ∧ R (past ++ [(k, r)]) s' (Function.update a k x))
    {calls : List (ι × ε)} (past : List (ι × ρ)) {s : σ} {a : ι → α} (hR : R past s a)
    (hallowed : ∀ k, Guarded (silent step) allowed (a k) (only k calls))
    (hroom : Guarded (silent gstep) room s calls) :
    ∃ rs t b, answers (labelled gstep) s calls = some (rs.map (Prod.map id view), t) ∧ R (past ++ rs) t b ∧
      ∀ k, answers step (a k) (only k calls) = some (only k rs, b k) := by
  induction calls generalizing past s a with
  | nil => exact ⟨[], s, a, rfl, past.append_nil.symm ▸ hR, fun _ => rfl⟩
  | cons call calls ih =>
      obtain ⟨k, e⟩ := call
      have hk := hallowed k
      rw [only_cons_self] at hk
      obtain ⟨r, x, s', hx, hs', hR'⟩ := hstep past s a k e hR hk.1 hroom.1
      have hsilent : silent gstep s (k, e) = some s' := by
        rw [silent, hs']
        rfl
      have hrest := hroom.2
      rw [hsilent] at hrest
      have hcomponents : ∀ j, Guarded (silent step) allowed (Function.update a k x j) (only j calls) := by
        intro j
        by_cases hj : j = k
        · subst hj
          have hlater := hk.2
          rw [silent, hx] at hlater
          rw [Function.update_self]
          exact hlater
        · have hothers := hallowed j
          rw [only_cons_of_ne hj] at hothers
          rw [Function.update_of_ne hj]
          exact hothers
      obtain ⟨rs, t, b, hrun, hRt, hall⟩ := ih _ hR' hcomponents hrest
      refine ⟨(k, r) :: rs, t, b, ?_, ?_, fun j => ?_⟩
      · simp [answers, labelled, hs', hrun]
      · rwa [List.append_assoc] at hRt
      · have hj := hall j
        by_cases hjk : j = k
        · subst hjk
          rw [Function.update_self] at hj
          simp [answers, hx, hj]
        · rw [Function.update_of_ne hjk] at hj
          rw [only_cons_of_ne hjk, only_cons_of_ne hjk, hj]

/-- If every step keeps the relation to the components and gives the answer of the one that
called, every run does. -/
theorem answers_interleaved {gstep : σ → ι × ε → Option (ρ × σ)} {step : α → ε → Option (ρ × α)}
    {R : σ → (ι → α) → Prop} {allowed : α → ε → Prop} {room : σ → ι × ε → Prop}
    (hstep : ∀ s a k e, R s a → allowed (a k) e → room s (k, e) → ∃ r x s', step (a k) e = some (r, x) ∧
      gstep s (k, e) = some (r, s') ∧ R s' (Function.update a k x))
    {calls : List (ι × ε)} {s : σ} {a : ι → α} (hR : R s a)
    (hallowed : ∀ k, Guarded (silent step) allowed (a k) (only k calls))
    (hroom : Guarded (silent gstep) room s calls) :
    ∃ rs t b, answers (labelled gstep) s calls = some (rs, t) ∧ R t b ∧
      ∀ k, answers step (a k) (only k calls) = some (only k rs, b k) := by
  obtain ⟨rs, t, b, hrun, hRt, hall⟩ := answers_recorded (fun _ => hstep) [] hR hallowed hroom
  have hsame : rs.map (Prod.map id fun r => r) = rs := List.map_id rs
  rw [hsame] at hrun
  exact ⟨rs, t, b, hrun, hRt, hall⟩

end only

end Execution
