import PracticeApps.CalculatorApp.PendingSlot

/-!
# The '=' key

`operationPressed` gives no value on one path only: '=' with an empty slot. The
number is there, since `calcButtonPressed` has just set it, and the slot never
holds an operation that is not binary.
-/

namespace PracticeApps.CalculatorApp
open DecimalText EventMachine

variable {D : Type}

def NumericDisplay (P : DoublePlatform D) (s : ViewController D) (_ : Key) : Prop :=
  (P.ofText s.displayLabel).isSome

instance (P : DoublePlatform D) (s : ViewController D) (k : Key) :
    Decidable (NumericDisplay P s k) := by unfold NumericDisplay; infer_instance

/- `operationPressed`, called after `setNumber`, is not `nil`. -/
def GivesValue (P : DoublePlatform D) (s : ViewController D) (k : Key) : Prop :=
  ∀ op value, k = .operation op → P.ofText s.displayLabel = some value →
    ((s.calculator.setNumber value).operationPressed P op).1 ≠ none

def ResultThere : Except Trap (ViewController D) → Prop
  | .ok _ => True
  | .error t => t ≠ .nilResult

/- An operator key is pressed before each '='. -/
def OperatorFirst (keys : List Key) : Prop :=
  ∀ u v, keys = u ++ .operation .compute :: v → ¬ NoBinaryKey u

/-! ### One press -/

section Press
variable {P : DoublePlatform D} {s : ViewController D}

theorem perform_isSome_iff {c : Calculator D} (n2 : D)
    (hbinary : ∀ n1 op, c.intermediateCalculation = some (n1, op) → op.isBinary = true) :
    c.performTwoNumCalculation P n2 ≠ none ↔ c.intermediateCalculation ≠ none := by
  cases hslot : c.intermediateCalculation with
  | none => simp [Calculator.performTwoNumCalculation, hslot]
  | some pending =>
    obtain ⟨n1, op⟩ := pending
    have hop := hbinary n1 op hslot
    simp only [Calculator.performTwoNumCalculation, hslot]
    cases op <;> simp [CalculatorOperation.isBinary] at hop ⊢

theorem givesValue_compute_iff {value : D} (hv : P.ofText s.displayLabel = some value)
    (hbinary : ∀ n op, s.calculator.intermediateCalculation = some (n, op) → op.isBinary = true) :
    GivesValue P s (.operation .compute) ↔ s.calculator.intermediateCalculation ≠ none := by
  rw [← perform_isSome_iff (P := P) value hbinary]
  constructor
  · intro h
    have hgives := h .compute value rfl hv
    rw [operationPressed_compute] at hgives
    exact hgives
  · intro h op x hop hx
    cases hop
    rw [hv] at hx
    cases hx
    rw [operationPressed_compute]
    exact h

/- The other keys need no pending operation. -/
theorem givesValue_of_ne {k : Key} (hk : k ≠ .operation .compute) : GivesValue P s k := by
  intro op value hop _
  have hc : op ≠ .compute := fun h => hk (by rw [hop, h])
  cases hbin : op.isBinary with
  | true =>
    rw [operationPressed_binary P _ _ hbin]
    simp
  | false =>
    obtain ⟨shown, hshown⟩ := operationPressed_unary P value hbin hc
    rw [hshown]
    simp

theorem press_ok {k : Key} (hnumeric : NumericDisplay P s k) (hgives : GivesValue P s k) :
    ∃ r, press P s k = .ok r := by
  obtain ⟨value, hv⟩ := Option.isSome_iff_exists.mp hnumeric
  cases k with
  | number k =>
    cases hflag : s.isFinishedTypingNumber with
    | true => exact ⟨_, press_first k hflag⟩
    | false =>
      cases k with
      | digit d => exact ⟨_, press_digit d hflag⟩
      | point =>
        rw [press_point hflag hv]
        split <;> exact ⟨_, rfl⟩
  | operation op =>
    have hsome := hgives op value rfl hv
    rw [press_operation op hv]
    cases hp : (s.calculator.setNumber value).operationPressed P op with
    | mk shown calculator =>
      rw [hp] at hsome
      cases shown with
      | none => exact absurd rfl hsome
      | some shown => exact ⟨_, rfl⟩

end Press

/-! ### Runs -/

theorem exec_ok_of_givesValue {P : DoublePlatform D} {keys : List Key}
    (hnumeric : AtEach (NumericDisplay P) (press P) launch keys)
    (hgives : AtEach (GivesValue P) (press P) launch keys) :
    ∃ r, exec (press P) launch keys = .ok r := by
  obtain ⟨r, hr, _⟩ := exec_safe (I := fun _ _ => True) trivial
    (fun _ _ _ _ he => (press_ok he.1 he.2).imp fun _ hr => ⟨hr, trivial⟩)
    (atEach_and hnumeric hgives)
  exact ⟨r, hr⟩

theorem givesValue_iff_operatorFirst {P : DoublePlatform D} {keys : List Key}
    (hnumeric : AtEach (NumericDisplay P) (press P) launch keys) :
    AtEach (GivesValue P) (press P) launch keys ↔ OperatorFirst keys := by
  -- the slot after a run from launch tells whether an operator was pressed in it
  have hcompute : ∀ u v r, keys = u ++ .operation .compute :: v → exec (press P) launch u = .ok r →
      (GivesValue P r (.operation .compute) ↔ ¬ NoBinaryKey u) := by
    intro u v r hsplit hr
    obtain ⟨value, hv⟩ := Option.isSome_iff_exists.mp (atEach_iff.mp hnumeric u _ v hsplit r hr)
    rcases slotFollows_of_exec hr with ⟨hno, hslot⟩ | ⟨hno, n, op, hbin, hslot⟩
    · rw [givesValue_compute_iff hv (by simp [hslot])]
      exact iff_of_false (fun h => h hslot) (fun h => h hno)
    · have hbinary : ∀ n' op', r.calculator.intermediateCalculation = some (n', op') →
          op'.isBinary = true := by
        intro n' op' h
        rw [hslot] at h
        cases h
        exact hbin
      rw [givesValue_compute_iff hv hbinary]
      exact iff_of_true (by simp [hslot]) hno
  constructor
  · intro h u v hsplit
    have hnumeric_u := hnumeric
    have hgives_u := h
    rw [hsplit] at hnumeric_u hgives_u
    obtain ⟨hnumeric_u, _⟩ := atEach_append.mp hnumeric_u
    obtain ⟨hgives_u, _⟩ := atEach_append.mp hgives_u
    obtain ⟨r, hr⟩ := exec_ok_of_givesValue hnumeric_u hgives_u
    exact (hcompute u v r hsplit hr).mp (atEach_iff.mp h u _ v hsplit r hr)
  · intro h
    rw [atEach_iff]
    intro u k v hsplit r hr
    by_cases hk : k = .operation .compute
    · rw [hk] at hsplit ⊢
      exact (hcompute u v r hsplit hr).mpr (h u v hsplit)
    · exact givesValue_of_ne hk

/-- On a run whose display stays numeric, `operationPressed` always gives a value,
and the `fatalError` for a missing result is not reached, exactly when an operator
key is pressed before each '='. -/
theorem result_there_iff (P : DoublePlatform D) (keys : List Key)
    (hnumeric : AtEach (NumericDisplay P) (press P) launch keys) :
    AtEach (GivesValue P) (press P) launch keys ∧ Accepted ResultThere (press P) launch keys ↔
      OperatorFirst keys := by
  rw [← givesValue_iff_operatorFirst hnumeric]
  refine and_iff_left_of_imp ?_
  intro hgives u hu
  obtain ⟨v, rfl⟩ := hu
  obtain ⟨r, hr⟩ := exec_ok_of_givesValue (atEach_append.mp hnumeric).1 (atEach_append.mp hgives).1
  rw [hr]
  trivial

/- 5 + 2 = =, with an AC before. -/
theorem five_plus_two_twice :
    AtEach (GivesValue decimalPlatform) (press decimalPlatform) launch
        [.operation .ac, .number (.digit 5), .operation .addition, .number (.digit 2),
          .operation .compute, .operation .compute] ∧
      Accepted ResultThere (press decimalPlatform) launch
        [.operation .ac, .number (.digit 5), .operation .addition, .number (.digit 2),
          .operation .compute, .operation .compute] := by
  refine (result_there_iff decimalPlatform _ (by decide +kernel)).mpr ?_
  intro u v hsplit hno
  have hmem : .operation .addition ∈ u := by
    rcases u with _ | ⟨_, _ | ⟨_, _ | ⟨_, u⟩⟩⟩ <;> simp at hsplit ⊢
    exact Or.inr (Or.inr (Or.inl hsplit.2.2.1))
  exact absurd (hno .addition hmem) (by decide)

/- '=' as the first key. -/
theorem compute_first_traps :
    AtEach (NumericDisplay decimalPlatform) (press decimalPlatform) launch
        [.operation .compute] ∧
      exec (press decimalPlatform) launch [.operation .compute] = .error .nilResult := by
  decide +kernel

end PracticeApps.CalculatorApp
