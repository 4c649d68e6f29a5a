import Mathlib.Data.List.Induction

/-!
# Event machines

Runs of a deterministic event handler that may trap. `exec` feeds a list of
events to a step function and stops at the first trap, `AtEach` asks a condition
of every event in the state it arrives in, and `trace` records what is observed
after each event. The rules below lift one-step facts to whole runs: invariants
that may mention the history, the exact condition under which every outcome of a
run is acceptable, and two runs in lockstep.
-/

namespace PracticeApps.EventMachine

variable {σ σ' ε ε' τ ω : Type}

/-! ### Runs -/

/-- Events handled one after another; the first trap ends the run. -/
def exec (step : σ → ε → Except τ σ) (s : σ) : List ε → Except τ σ
  | [] => .ok s
  | e :: es =>
    match step s e with
    | .ok r => exec step r es
    | .error t => .error t

section Runs
variable {step : σ → ε → Except τ σ}

@[simp] theorem exec_nil (s : σ) : exec step s [] = .ok s := rfl

theorem exec_cons_ok {s r : σ} {e : ε} (es : List ε) (h : step s e = .ok r) :
    exec step s (e :: es) = exec step r es := by
  simp only [exec, h]

theorem exec_cons_error {s : σ} {e : ε} {t : τ} (es : List ε) (h : step s e = .error t) :
    exec step s (e :: es) = .error t := by
  simp only [exec, h]

@[simp] theorem exec_singleton (s : σ) (e : ε) : exec step s [e] = step s e := by
  simp only [exec]
  cases step s e <;> rfl

theorem exec_append_ok {s r : σ} {es : List ε} (fs : List ε) (h : exec step s es = .ok r) :
    exec step s (es ++ fs) = exec step r fs := by
  induction es generalizing s with
  | nil =>
    have hs : s = r := by simpa using h
    rw [hs, List.nil_append]
  | cons e es ih =>
    cases hq : step s e with
    | error t => rw [exec_cons_error es hq] at h; cases h
    | ok q =>
      rw [exec_cons_ok es hq] at h
      rw [List.cons_append, exec_cons_ok _ hq]
      exact ih h

theorem exec_append_error {s : σ} {es : List ε} {t : τ} (fs : List ε)
    (h : exec step s es = .error t) : exec step s (es ++ fs) = .error t := by
  induction es generalizing s with
  | nil => cases h
  | cons e es ih =>
    cases hq : step s e with
    | error u =>
      rw [exec_cons_error es hq] at h
      rw [List.cons_append, exec_cons_error _ hq]
      exact h
    | ok q =>
      rw [exec_cons_ok es hq] at h
      rw [List.cons_append, exec_cons_ok _ hq]
      exact ih h

/-- A run that ends well passed well through each of its prefixes. -/
theorem exec_append_inv {s r : σ} {es fs : List ε} (h : exec step s (es ++ fs) = .ok r) :
    ∃ q, exec step s es = .ok q ∧ exec step q fs = .ok r := by
  cases hq : exec step s es with
  | error t => rw [exec_append_error fs hq] at h; cases h
  | ok q =>
    rw [exec_append_ok fs hq] at h
    exact ⟨q, rfl, h⟩

theorem exec_concat_ok {s r : σ} {es : List ε} (e : ε) (h : exec step s es = .ok r) :
    exec step s (es ++ [e]) = step r e := by
  rw [exec_append_ok [e] h, exec_singleton]

theorem exec_concat_inv {s r : σ} {es : List ε} {e : ε}
    (h : exec step s (es ++ [e]) = .ok r) :
    ∃ q, exec step s es = .ok q ∧ step q e = .ok r := by
  obtain ⟨q, hq, hr⟩ := exec_append_inv h
  rw [exec_singleton] at hr
  exact ⟨q, hq, hr⟩

end Runs

/-! ### Conditions on the steps of a run -/

/-- `C` holds of every event and the state it arrives in; nothing is asked of
what follows a trap. With `C` the enabledness of events this says that the run
is one the platform can deliver. -/
def AtEach (C : σ → ε → Prop) (step : σ → ε → Except τ σ) (s : σ) : List ε → Prop
  | [] => True
  | e :: es => C s e ∧
    match step s e with
    | .ok r => AtEach C step r es
    | .error _ => True

section Conditions
variable {C : σ → ε → Prop} {step : σ → ε → Except τ σ}

instance decidableAtEach [∀ s e, Decidable (C s e)] (s : σ) :
    (es : List ε) → Decidable (AtEach C step s es)
  | [] => isTrue trivial
  | e :: es =>
    have : Decidable (match step s e with
        | .ok r => AtEach C step r es
        | .error _ => True) :=
      match step s e with
      | .ok r => decidableAtEach r es
      | .error _ => isTrue trivial
    inferInstanceAs (Decidable (_ ∧ _))

theorem atEach_cons_ok {s r : σ} {e : ε} (es : List ε) (h : step s e = .ok r) :
    AtEach C step s (e :: es) ↔ C s e ∧ AtEach C step r es := by
  simp only [AtEach, h]

theorem atEach_cons_error {s : σ} {e : ε} {t : τ} (es : List ε) (h : step s e = .error t) :
    AtEach C step s (e :: es) ↔ C s e := by
  simp only [AtEach, h, and_true]

/- The splits of a run with one event more in front. -/
theorem splits_cons {P : List ε → ε → Prop} {e : ε} {es : List ε} :
    (∀ u f v, e :: es = u ++ f :: v → P u f) ↔
      P [] e ∧ ∀ u f v, es = u ++ f :: v → P (e :: u) f := by
  constructor
  · intro h
    refine ⟨h [] e es rfl, fun u f v huv => ?_⟩
    exact h (e :: u) f v (congrArg (e :: ·) huv)
  · rintro ⟨hfirst, hrest⟩ u f v huv
    cases u with
    | nil =>
      cases huv
      exact hfirst
    | cons g u =>
      cases huv
      exact hrest u f v rfl

/-- The condition read off the splits of the run. -/
theorem atEach_iff {s : σ} {es : List ε} :
    AtEach C step s es ↔
      ∀ u e v, es = u ++ e :: v → ∀ r, exec step s u = .ok r → C r e := by
  induction es generalizing s with
  | nil => simp [AtEach]
  | cons e es ih =>
    rw [splits_cons]
    have hfirst : (∀ r, exec step s [] = .ok r → C r e) ↔ C s e := by simp
    rw [hfirst]
    cases hq : step s e with
    | error t =>
      rw [atEach_cons_error es hq]
      simp [exec_cons_error _ hq]
    | ok q =>
      rw [atEach_cons_ok es hq, ih]
      simp only [exec_cons_ok _ hq]

theorem atEach_append {s : σ} {es fs : List ε} :
    AtEach C step s (es ++ fs) ↔
      AtEach C step s es ∧ ∀ r, exec step s es = .ok r → AtEach C step r fs := by
  induction es generalizing s with
  | nil => simp [AtEach]
  | cons e es ih =>
    rw [List.cons_append]
    cases hq : step s e with
    | error t =>
      rw [atEach_cons_error _ hq, atEach_cons_error _ hq, exec_cons_error es hq]
      simp
    | ok q =>
      rw [atEach_cons_ok _ hq, atEach_cons_ok _ hq, exec_cons_ok es hq, ih, and_assoc]

theorem atEach_append_ok {s r : σ} {es : List ε} (fs : List ε) (h : exec step s es = .ok r) :
    AtEach C step s (es ++ fs) ↔ AtEach C step s es ∧ AtEach C step r fs := by
  rw [atEach_append, h]
  simp only [Except.ok.injEq, forall_eq']

theorem atEach_singleton {s : σ} {e : ε} : AtEach C step s [e] ↔ C s e := by
  cases hq : step s e <;> simp [AtEach, hq]

theorem atEach_concat {s : σ} {es : List ε} {e : ε} :
    AtEach C step s (es ++ [e]) ↔
      AtEach C step s es ∧ ∀ r, exec step s es = .ok r → C r e := by
  simp only [atEach_append, atEach_singleton]

theorem atEach_of_mem {es : List ε} (h : ∀ e ∈ es, ∀ s, C s e) (s : σ) : AtEach C step s es := by
  rw [atEach_iff]
  intro u e v hes r _
  exact h e (by rw [hes]; simp) r

theorem atEach_and {D : σ → ε → Prop} {s : σ} {es : List ε} (hC : AtEach C step s es)
    (hD : AtEach D step s es) : AtEach (fun s e => C s e ∧ D s e) step s es := by
  rw [atEach_iff] at hC hD ⊢
  intro u e v hes r hr
  exact ⟨hC u e v hes r hr, hD u e v hes r hr⟩

theorem atEach_of_forall (h : ∀ s e, C s e) (s : σ) (es : List ε) : AtEach C step s es :=
  atEach_of_mem (fun e _ r => h r e) s

/- A condition on the events alone, along a run that does not trap. -/
theorem atEach_iff_forall_mem {P : ε → Prop} {s : σ} {es : List ε}
    (hok : ∃ r, exec step s es = .ok r) : AtEach (fun _ e => P e) step s es ↔ ∀ e ∈ es, P e := by
  constructor
  · intro h e he
    obtain ⟨r, hr⟩ := hok
    obtain ⟨u, v, hes⟩ := List.append_of_mem he
    rw [hes] at hr
    obtain ⟨q, hq, _⟩ := exec_append_inv hr
    exact atEach_iff.mp h u e v hes q hq
  · intro h
    exact atEach_of_mem (fun e he _ => h e he) s

end Conditions

/-! ### Invariants -/

section Invariants
variable {E : σ → ε → Prop} {step : σ → ε → Except τ σ} {s₀ : σ}

/-- An invariant that may mention the events so far holds after every run. -/
theorem exec_history {I : List ε → σ → Prop} (h0 : I [] s₀)
    (hstep : ∀ es s e r, I es s → E s e → step s e = .ok r → I (es ++ [e]) r)
    {es : List ε} {r : σ} (hf : AtEach E step s₀ es)
    (hr : exec step s₀ es = .ok r) : I es r := by
  induction es using List.reverseRecOn generalizing r with
  | nil =>
    cases hr
    exact h0
  | append_singleton es e ih =>
    obtain ⟨q, hq, hqr⟩ := exec_concat_inv hr
    obtain ⟨hes, he⟩ := atEach_concat.mp hf
    exact hstep es q e r (ih hes hq) (he q hq) hqr

/- An invariant turns the conditions met by the events into others. -/
theorem atEach_of_invariant {C : σ → ε → Prop} {I : σ → Prop} (h0 : I s₀)
    (hstep : ∀ s e r, I s → E s e → step s e = .ok r → I r) (hC : ∀ s e, I s → E s e → C s e)
    {es : List ε} (hf : AtEach E step s₀ es) : AtEach C step s₀ es := by
  induction es generalizing s₀ with
  | nil => trivial
  | cons e es ih =>
    cases hq : step s₀ e with
    | error t =>
      rw [atEach_cons_error es hq] at hf ⊢
      exact hC s₀ e h0 hf
    | ok q =>
      rw [atEach_cons_ok es hq] at hf ⊢
      exact ⟨hC s₀ e h0 hf.1, ih (hstep s₀ e q h0 hf.1 hq) hf.2⟩

/-- If no step traps from a state that meets the invariant, no run traps. -/
theorem exec_safe {I : List ε → σ → Prop} (h0 : I [] s₀)
    (hstep : ∀ es s e, I es s → E s e → ∃ r, step s e = .ok r ∧ I (es ++ [e]) r)
    {es : List ε} (hf : AtEach E step s₀ es) :
    ∃ r, exec step s₀ es = .ok r ∧ I es r := by
  induction es using List.reverseRecOn with
  | nil => exact ⟨s₀, rfl, h0⟩
  | append_singleton es e ih =>
    obtain ⟨hes, he⟩ := atEach_concat.mp hf
    obtain ⟨q, hq, hI⟩ := ih hes
    obtain ⟨r, hr, hI'⟩ := hstep es q e hI (he q hq)
    exact ⟨r, by rw [exec_concat_ok e hq, hr], hI'⟩

/-- Every outcome along the run, the last one included, is acceptable. -/
def Accepted (A : Except τ σ → Prop) (step : σ → ε → Except τ σ) (s : σ)
    (es : List ε) : Prop :=
  ∀ u, u <+: es → A (exec step s u)

theorem accepted_concat {A : Except τ σ → Prop} {s : σ} {es : List ε} {e : ε} :
    Accepted A step s (es ++ [e]) ↔
      Accepted A step s es ∧ A (exec step s (es ++ [e])) := by
  simp only [Accepted, List.prefix_concat_iff, forall_eq_or_imp]
  exact and_comm

/-- The exact condition for a run to stay acceptable, from the exact condition
for one step out of an acceptable state. -/
theorem accepted_iff_atEach {A : Except τ σ → Prop} {C : σ → ε → Prop} {I : σ → Prop}
    (hI0 : I s₀) (hA0 : A (.ok s₀))
    (hiff : ∀ s e, I s → A (.ok s) → E s e → (A (step s e) ↔ C s e))
    (hI : ∀ s e r, I s → A (.ok s) → E s e → step s e = .ok r → A (.ok r) → I r)
    {es : List ε} (hf : AtEach E step s₀ es) :
    Accepted A step s₀ es ↔ AtEach C step s₀ es := by
  suffices h : (Accepted A step s₀ es ↔ AtEach C step s₀ es) ∧
      (Accepted A step s₀ es → ∀ r, exec step s₀ es = .ok r → I r) from h.1
  induction es using List.reverseRecOn with
  | nil =>
    refine ⟨?_, fun _ r hr => ?_⟩
    · simpa [Accepted, AtEach] using hA0
    · cases hr
      exact hI0
  | append_singleton es e ih =>
    obtain ⟨hes, he⟩ := atEach_concat.mp hf
    obtain ⟨ih1, ih2⟩ := ih hes
    rw [accepted_concat, atEach_concat]
    cases hq : exec step s₀ es with
    | error t =>
      rw [exec_append_error [e] hq]
      refine ⟨?_, fun _ r hr => by cases hr⟩
      constructor
      · rintro ⟨h1, _⟩
        exact ⟨ih1.mp h1, fun r hr => by cases hr⟩
      · rintro ⟨h1, _⟩
        exact ⟨ih1.mpr h1, by
          have h := ih1.mpr h1 es (List.prefix_refl es)
          rwa [hq] at h⟩
    | ok q =>
      rw [exec_concat_ok e hq]
      have hAq : Accepted A step s₀ es → A (.ok q) := fun h => by
        have h1 := h es (List.prefix_refl es)
        rwa [hq] at h1
      have hstep : Accepted A step s₀ es → (A (step q e) ↔ C q e) := fun h =>
        hiff q e (ih2 h q hq) (hAq h) (he q hq)
      refine ⟨?_, ?_⟩
      · constructor
        · rintro ⟨h1, h2⟩
          refine ⟨ih1.mp h1, fun r hr => ?_⟩
          cases hr
          exact (hstep h1).mp h2
        · rintro ⟨h1, h2⟩
          exact ⟨ih1.mpr h1, (hstep (ih1.mpr h1)).mpr (h2 q rfl)⟩
      · rintro ⟨h1, h2⟩ r hr
        refine hI q e r (ih2 h1 q hq) (hAq h1) (he q hq) hr ?_
        rwa [hr] at h2

end Invariants

/-! ### Two runs side by side -/

/-- What is seen after each event of a run; a trap is seen once and is the last. -/
def trace (obs : σ → ω) (step : σ → ε → Except τ σ) (s : σ) : List ε → List (Except τ ω)
  | [] => []
  | e :: es =>
    match step s e with
    | .ok r => .ok (obs r) :: trace obs step r es
    | .error t => [.error t]

/-- Two outcomes in lockstep: related states, or the same trap. -/
def Lockstep (R : σ → σ' → Prop) : Except τ σ → Except τ σ' → Prop
  | .ok r, .ok r' => R r r'
  | .error t, .error t' => t = t'
  | _, _ => False

section TwoRuns
variable {step : σ → ε → Except τ σ} {step' : σ' → ε → Except τ σ'}
variable {obs : σ → ω} {obs' : σ' → ω} {R : σ → σ' → Prop} {C : σ → ε → Prop}

/-- If related states stay in lockstep on the events that meet `C` and visibly
differ on the others, two runs look the same exactly when every event meets `C`. -/
theorem trace_eq_iff (hobs : ∀ s s', R s s' → obs s = obs' s')
    (hstep : ∀ s s' e, R s s' → C s e → Lockstep R (step s e) (step' s' e))
    (hdiff : ∀ s s' e, R s s' → ¬ C s e → ∃ t r', step s e = .error t ∧ step' s' e = .ok r')
    {s : σ} {s' : σ'} (h : R s s') (es : List ε) :
    trace obs step s es = trace obs' step' s' es ↔ AtEach C step s es := by
  induction es generalizing s s' with
  | nil => simp [trace, AtEach]
  | cons e es ih =>
    by_cases hC : C s e
    · have hl := hstep s s' e h hC
      cases hs : step s e with
      | ok r =>
        cases hs' : step' s' e with
        | ok r' =>
          rw [hs, hs'] at hl
          simp only [trace, AtEach, hs, hs', hobs r r' hl, ih hl, hC, List.cons.injEq, true_and]
        | error t' => rw [hs, hs'] at hl; exact hl.elim
      | error t =>
        cases hs' : step' s' e with
        | ok r' => rw [hs, hs'] at hl; exact hl.elim
        | error t' =>
          rw [hs, hs'] at hl
          have ht : t = t' := hl
          simp only [trace, AtEach, hs, hs', hC, ht, and_self]
    · obtain ⟨t, r', hs, hs'⟩ := hdiff s s' e h hC
      simp only [trace, AtEach, hs, hs', hC, false_and, iff_false]
      simp

/-- Lockstep on every event: the two runs look the same. -/
theorem trace_eq_of_lockstep (hobs : ∀ s s', R s s' → obs s = obs' s')
    (hstep : ∀ s s' e, R s s' → Lockstep R (step s e) (step' s' e))
    {s : σ} {s' : σ'} (h : R s s') (es : List ε) :
    trace obs step s es = trace obs' step' s' es :=
  (trace_eq_iff (C := fun _ _ => True) hobs (fun s s' e hR _ => hstep s s' e hR)
    (fun _ _ _ _ hC => absurd trivial hC) h es).mpr (atEach_of_forall (fun _ _ => trivial) s es)

end TwoRuns

/-! ### One machine over another -/

section Layers
variable {τ' : Type} {step : σ → ε → Except τ σ} {step' : σ' → ε' → Except τ' σ'}
variable {R : σ → σ' → Prop} {lower : τ → Option τ'} {relay : σ → ε → List ε'}

/-- The events that a run hands to the machine below it. -/
def relayed (relay : σ → ε → List ε') (step : σ → ε → Except τ σ) (s : σ) : List ε → List ε'
  | [] => []
  | e :: es =>
    relay s e ++
      match step s e with
      | .ok r => relayed relay step r es
      | .error _ => []

theorem mem_relayed {s : σ} {es : List ε} {e' : ε'} (h : e' ∈ relayed relay step s es) :
    ∃ e ∈ es, ∃ r, e' ∈ relay r e := by
  induction es generalizing s with
  | nil => cases h
  | cons e es ih =>
    unfold relayed at h
    rcases List.mem_append.mp h with hhere | hlater
    · exact ⟨e, List.mem_cons_self, s, hhere⟩
    · cases hs : step s e with
      | ok r =>
        rw [hs] at hlater
        obtain ⟨f, hf, hrelay⟩ := ih hlater
        exact ⟨f, List.mem_cons_of_mem _ hf, hrelay⟩
      | error t =>
        rw [hs] at hlater
        cases hlater

/-- An outcome over an outcome below: related states, or a trap that `lower` knows
from below, or a trap of the upper machine alone. -/
def Over (R : σ → σ' → Prop) (lower : τ → Option τ') : Except τ σ → Except τ' σ' → Prop
  | .ok r, .ok r' => R r r'
  | .error t, .error t' => lower t = some t'
  | .error t, .ok _ => lower t = none
  | .ok _, .error _ => False

/-- A trap known from below is the trap of the machine below. -/
theorem over_error {t : τ} {t' : τ'} {out : Except τ' σ'} (h : Over R lower (.error t) out)
    (ht : lower t = some t') : out = .error t' := by
  cases out with
  | ok r' =>
    have hnone : lower t = none := h
    rw [ht] at hnone
    cases hnone
  | error u =>
    have hsome : lower t = some u := h
    rw [ht] at hsome
    cases hsome
    rfl

/-- If each event stays over the events that it hands down, so does a run. -/
theorem exec_over
    (hstep : ∀ s s' e, R s s' → Over R lower (step s e) (exec step' s' (relay s e)))
    {s : σ} {s' : σ'} (h : R s s') (es : List ε) :
    Over R lower (exec step s es) (exec step' s' (relayed relay step s es)) := by
  induction es generalizing s s' with
  | nil => exact h
  | cons e es ih =>
    have he := hstep s s' e h
    unfold relayed
    cases hs : step s e with
    | ok r =>
      cases hs' : exec step' s' (relay s e) with
      | ok r' =>
        rw [hs, hs'] at he
        rw [exec_cons_ok es hs, exec_append_ok _ hs']
        exact ih he
      | error t' =>
        rw [hs, hs'] at he
        exact he.elim
    | error t =>
      rw [hs] at he
      rw [exec_cons_error es hs, List.append_nil]
      exact he

end Layers

end PracticeApps.EventMachine
