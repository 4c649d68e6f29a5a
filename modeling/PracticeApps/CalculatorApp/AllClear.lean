import PracticeApps.CalculatorApp.PendingSlot

/-!
# What the AC key forgets

AC prints 0 and leaves the pending slot as it is. Two runs are compared: `t`
from launch, and `t` after a press sequence and AC. They differ only in the
slot, and the difference shows when '=' is pressed before an operator has
filled the slot again: the run from launch traps, the other one computes.
-/

namespace PracticeApps.CalculatorApp
open DecimalText EventMachine

variable {D : Type} {P : DoublePlatform D}

/-- After `s` and AC, `t` shows the same displays as from launch, and traps at
the same press if at all. -/
def AcClears (P : DoublePlatform D) (s t : List Key) : Prop :=
  ∃ r, exec (press P) launch (s ++ [.operation .ac]) = .ok r ∧
    trace ViewController.displayLabel (press P) r t =
      trace ViewController.displayLabel (press P) launch t

/-- `t` presses '=' on a readable display before any binary operator key. -/
def ComputesFirst (P : DoublePlatform D) (t : List Key) : Prop :=
  ∃ u v r, t = u ++ .operation .compute :: v ∧ NoBinaryKey u ∧
    exec (press P) launch u = .ok r ∧ (P.ofText r.displayLabel).isSome

/-! ### Two runs that differ in the slot -/

/- Everything but the stored number and the slot agrees. -/
def SameScreen (s s' : ViewController D) : Prop :=
  s.displayLabel = s'.displayLabel ∧ s.isFinishedTypingNumber = s'.isFinishedTypingNumber

/- '=' is not pressed on a readable display with an empty slot. -/
def ComputeGuarded (P : DoublePlatform D) (s : ViewController D) (k : Key) : Prop :=
  k = .operation .compute → s.calculator.intermediateCalculation = none →
    P.ofText s.displayLabel = none

/- The screens agree and the slots are related by `Q`. -/
def Paired (Q : Option (D × CalculatorOperation) → Option (D × CalculatorOperation) → Prop)
    (s s' : ViewController D) : Prop :=
  SameScreen s s' ∧
    Q s.calculator.intermediateCalculation s'.calculator.intermediateCalculation

section Pairs
variable {Q : Option (D × CalculatorOperation) → Option (D × CalculatorOperation) → Prop}

theorem number_lockstep {s s' : ViewController D} (h : Paired Q s s') (k : NumberKey) :
    Lockstep (Paired Q) (press P s (.number k)) (press P s' (.number k)) := by
  obtain ⟨label, typing, c⟩ := s
  obtain ⟨label', typing', c'⟩ := s'
  obtain ⟨⟨hlabel, htyping⟩, hslot⟩ := h
  cases hlabel
  cases htyping
  cases typing with
  | true =>
    rw [press_first k rfl, press_first k rfl]
    exact ⟨⟨rfl, rfl⟩, hslot⟩
  | false =>
    cases k with
    | digit d =>
      rw [press_digit d rfl, press_digit d rfl]
      exact ⟨⟨rfl, rfl⟩, hslot⟩
    | point =>
      cases hv : P.ofText label with
      | none =>
        rw [press_point_unreadable rfl hv, press_point_unreadable rfl hv]
        rfl
      | some value =>
        rw [press_point rfl hv, press_point rfl hv]
        split <;> exact ⟨⟨rfl, rfl⟩, hslot⟩

/- Two paired runs stay together on every key, except on an '=' that finds two
different slots. -/
theorem press_lockstep (hQ : ∀ n op, op.isBinary = true → Q (some (n, op)) (some (n, op)))
    {s s' : ViewController D} (h : Paired Q s s') (k : Key)
    (hk : k = .operation .compute → (P.ofText s.displayLabel).isSome →
      s.calculator.intermediateCalculation = s'.calculator.intermediateCalculation) :
    Lockstep (Paired Q) (press P s k) (press P s' k) := by
  cases k with
  | number k => exact number_lockstep h k
  | operation op =>
    obtain ⟨hscreen, hslot⟩ := h
    cases hv : P.ofText s.displayLabel with
    | none =>
      have hv' : P.ofText s'.displayLabel = none := by rw [← hscreen.1, hv]
      rw [press_operation_unreadable op hv, press_operation_unreadable op hv']
      rfl
    | some n =>
      have hv' : P.ofText s'.displayLabel = some n := by rw [← hscreen.1, hv]
      rw [press_operation op hv, press_operation op hv']
      cases hop : op.isBinary with
      | true =>
        rw [operationPressed_binary P _ _ hop, operationPressed_binary P _ _ hop]
        exact ⟨⟨rfl, rfl⟩, hQ n op hop⟩
      | false =>
        by_cases hc : op = .compute
        · have hsame := hk (by rw [hc]) (by rw [hv]; rfl)
          have hperform : s'.calculator.performTwoNumCalculation P n =
              s.calculator.performTwoNumCalculation P n := by
            simp only [Calculator.performTwoNumCalculation, hsame]
          rw [hc, operationPressed_compute, operationPressed_compute, hperform]
          cases s.calculator.performTwoNumCalculation P n with
          | none => rfl
          | some value => exact ⟨⟨rfl, rfl⟩, hslot⟩
        · obtain ⟨value, hvalue⟩ := operationPressed_unary P n hop hc
          rw [hvalue, hvalue]
          exact ⟨⟨rfl, rfl⟩, hslot⟩

end Pairs

/- The second slot holds a binary operation; the first one the same, or nothing yet. -/
def StaleSlot (slot slot' : Option (D × CalculatorOperation)) : Prop :=
  (∃ n op, op.isBinary = true ∧ slot' = some (n, op)) ∧ (slot = slot' ∨ slot = none)

/- On a first '=' the run with the empty slot traps and the other one computes. -/
theorem stale_compute {s s' : ViewController D} (h : Paired StaleSlot s s') (k : Key)
    (hk : ¬ ComputeGuarded P s k) :
    ∃ t r', press P s k = .error t ∧ press P s' k = .ok r' := by
  obtain ⟨hscreen, ⟨m, op, hop, hslot'⟩, _⟩ := h
  simp only [ComputeGuarded, Classical.not_imp] at hk
  obtain ⟨rfl, hnone, hv⟩ := hk
  obtain ⟨n, hv⟩ := Option.ne_none_iff_exists'.mp hv
  have hv' : P.ofText s'.displayLabel = some n := by rw [← hscreen.1, hv]
  have hfail : s.calculator.performTwoNumCalculation P n = none := by
    simp only [Calculator.performTwoNumCalculation, hnone]
  have hdone : ∃ value, s'.calculator.performTwoNumCalculation P n = some value := by
    simp only [Calculator.performTwoNumCalculation, hslot']
    cases op <;> first | exact ⟨_, rfl⟩ | cases hop
  obtain ⟨value, hvalue⟩ := hdone
  refine ⟨.nilResult, ⟨P.clean value, true, s'.calculator.setNumber n⟩, ?_, ?_⟩
  · rw [press_operation _ hv, operationPressed_compute, hfail]
  · rw [press_operation _ hv', operationPressed_compute, hvalue]

theorem atEach_computeGuarded_iff (t : List Key) :
    AtEach (ComputeGuarded P) (press P) launch t ↔ ¬ ComputesFirst P t := by
  rw [atEach_iff]
  constructor
  · intro h hfirst
    obtain ⟨u, v, r, ht, hu, hr, hread⟩ := hfirst
    have hslot : r.calculator.intermediateCalculation = none := by
      rcases slotFollows_of_exec hr with ⟨_, hslot⟩ | ⟨hno, _⟩
      · exact hslot
      · exact absurd hu hno
    rw [h u _ v ht r hr rfl hslot] at hread
    cases hread
  · intro h u k v ht r hr hk hslot
    by_contra hread
    have hu : NoBinaryKey u := by
      rcases slotFollows_of_exec hr with ⟨hu, _⟩ | ⟨_, n, op, _, hsome⟩
      · exact hu
      · rw [hslot] at hsome
        cases hsome
    exact h ⟨u, v, r, by rw [ht, hk], hu, hr, Option.isSome_iff_ne_none.mpr hread⟩

/-! ### The AC key -/

theorem emptySlot_trace {s' : ViewController D} (h : Paired Eq launch s') (t : List Key) :
    trace ViewController.displayLabel (press P) launch t =
      trace ViewController.displayLabel (press P) s' t := by
  have hstep : ∀ (r r' : ViewController D) (k : Key), Paired Eq r r' →
      Lockstep (Paired Eq) (press P r k) (press P r' k) := by
    intro r r' k h
    exact press_lockstep (fun _ _ _ => rfl) h k fun _ _ => h.2
  exact trace_eq_of_lockstep (fun _ _ h => h.1.1) hstep h t

/- A stale slot shows on the first '=' that finds the other slot empty. -/
theorem staleSlot_trace_iff {s' : ViewController D} (h : Paired StaleSlot launch s')
    (t : List Key) :
    trace ViewController.displayLabel (press P) launch t =
        trace ViewController.displayLabel (press P) s' t ↔ ¬ ComputesFirst P t := by
  have hstep : ∀ (r r' : ViewController D) (k : Key), Paired StaleSlot r r' →
      ComputeGuarded P r k → Lockstep (Paired StaleSlot) (press P r k) (press P r' k) := by
    intro r r' k h hk
    refine press_lockstep (fun x o ho => ⟨⟨x, o, ho, rfl⟩, Or.inl rfl⟩) h k ?_
    intro hcompute hread
    rcases h.2.2 with hsame | hnone
    · exact hsame
    · rw [hk hcompute hnone] at hread
      cases hread
  rw [trace_eq_iff (fun _ _ h => h.1.1) hstep (fun _ _ k h hk => stale_compute h k hk) h t]
  exact atEach_computeGuarded_iff t

/-- AC clears after a run `s` exactly when it can read the display, and either
`s` pressed no operator, or `t` does not use '=' before an operator of its own. -/
theorem ac_clears_iff (P : DoublePlatform D) (hzero : P.clean (P.intLiteral 0) = ['0'])
    (s t : List Key) (q : ViewController D) (hs : exec (press P) launch s = .ok q) :
    AcClears P s t ↔
      (P.ofText q.displayLabel).isSome ∧ (NoBinaryKey s ∨ ¬ ComputesFirst P t) := by
  unfold AcClears
  rw [exec_concat_ok _ hs]
  cases hv : P.ofText q.displayLabel with
  | none =>
    rw [press_operation_unreadable .ac hv]
    simp
  | some n =>
    have hac : press P q (.operation .ac) =
        .ok ⟨['0'], true, q.calculator.setNumber n⟩ := by
      rw [press_operation .ac hv, ← hzero]
      rfl
    have hscreen : SameScreen launch
        (⟨['0'], true, q.calculator.setNumber n⟩ : ViewController D) := ⟨rfl, rfl⟩
    have htrace : (∃ r, press P q (.operation .ac) = .ok r ∧
          trace ViewController.displayLabel (press P) r t =
            trace ViewController.displayLabel (press P) launch t) ↔
        trace ViewController.displayLabel (press P) launch t =
          trace ViewController.displayLabel (press P)
            ⟨['0'], true, q.calculator.setNumber n⟩ t := by
      rw [hac]
      simp [eq_comm]
    rw [htrace]
    rcases slotFollows_of_exec hs with ⟨hno, hslot⟩ | ⟨hno, m, op, hop, hslot⟩
    · -- no operator in `s`: the slots are equal and stay equal
      have hpair : Paired Eq launch
          (⟨['0'], true, q.calculator.setNumber n⟩ : ViewController D) := ⟨hscreen, hslot.symm⟩
      have heq := emptySlot_trace (P := P) hpair t
      simp [heq, hno]
    · have hpair : Paired StaleSlot launch
          (⟨['0'], true, q.calculator.setNumber n⟩ : ViewController D) :=
        ⟨hscreen, ⟨m, op, hop, hslot⟩, Or.inr rfl⟩
      have hiff := staleSlot_trace_iff (P := P) hpair t
      rw [hiff]
      simp [hno]

theorem ac_clears_seven_percent :
    AcClears decimalPlatform [.number (.digit 7), .operation .percent]
      [.number (.digit 1), .operation .addition, .number (.digit 2), .operation .compute] :=
  (ac_clears_iff decimalPlatform (by decide +kernel) _ _
    ⟨decimalPlatform.clean (7 / 100), true, ⟨some 7, none⟩⟩ (by decide +kernel)).mpr
    ⟨by decide +kernel, Or.inl fun op hop => by simp at hop; rw [hop]; rfl⟩

/- 5 + AC = shows 5, while '=' traps from launch. -/
theorem ac_keeps_five_plus :
    ¬ AcClears decimalPlatform [.number (.digit 5), .operation .addition]
      [.operation .compute] := by
  intro h
  obtain ⟨r, hr, htrace⟩ := h
  have hstate : exec (press decimalPlatform) launch
      ([.number (.digit 5), .operation .addition] ++ [.operation .ac]) =
        .ok ⟨['0'], true, ⟨some 5, some (5, .addition)⟩⟩ := by decide +kernel
  rw [hstate] at hr
  cases hr
  exact absurd htrace (by decide +kernel)

end PracticeApps.CalculatorApp
