import PracticeApps.CalculatorApp.ViewController

/-!
# Chains of binary operations

Typing `a0 o1 a1 ... on an =` over exact rationals. `exec_operand` says what
typing one operand does to the display, `exec_chain` what is on the display and
in the pending slot before '='. An operator key never evaluates the operation
that is still pending, it overwrites the slot, so '=' applies the last operator
to the last two operands.
-/

namespace PracticeApps.CalculatorApp
open DecimalText EventMachine

/-! ### Operands as they are typed -/

/-- A numeral that starts with a digit and has one point at most. -/
structure Operand where
  first : Fin 10
  rest : List (Fin 10)
  fraction : Option (List (Fin 10))

def digitKeys (ds : List (Fin 10)) : List Key := ds.map fun d => .number (.digit d)
def digitChars (ds : List (Fin 10)) : Text := ds.map fun d => (NumberKey.digit d).char

def Operand.keys (a : Operand) : List Key :=
  digitKeys (a.first :: a.rest) ++
    match a.fraction with
    | none => []
    | some f => .number .point :: digitKeys f

theorem allDigits_digitChars (ds : List (Fin 10)) : AllDigits (digitChars ds) := by
  intro c hc
  obtain ⟨d, _, rfl⟩ := List.mem_map.mp hc
  exact digit_char_isDigit d

def Operand.decimal (a : Operand) : Decimal where
  whole := digitChars (a.first :: a.rest)
  fraction := a.fraction.map digitChars
  whole_digits := allDigits_digitChars _
  fraction_digits := by
    cases a.fraction with
    | none => simp [AllDigits]
    | some f => exact allDigits_digitChars f
  nonempty := by simp [digitChars]

def Operand.value (a : Operand) : ℚ := a.decimal.value

/- The part of a numeral before its point. -/
def wholeDecimal (d : Fin 10) (ds : List (Fin 10)) : Decimal where
  whole := digitChars (d :: ds)
  fraction := none
  whole_digits := allDigits_digitChars _
  fraction_digits := by simp [AllDigits]
  nonempty := by simp [digitChars]

section Typing
variable {D : Type} {P : DoublePlatform D}

theorem exec_digits {s : ViewController D} (h : s.isFinishedTypingNumber = false)
    (ds : List (Fin 10)) :
    exec (press P) s (digitKeys ds) =
      .ok { s with displayLabel := s.displayLabel ++ digitChars ds } := by
  induction ds generalizing s with
  | nil => simp [digitKeys, digitChars]
  | cons d ds ih =>
    show exec (press P) s (.number (.digit d) :: digitKeys ds) = _
    have htail := ih (s := { s with displayLabel := s.displayLabel ++ [(NumberKey.digit d).char] }) h
    rw [exec_cons_ok _ (press_digit d h), htail]
    simp [digitChars]

theorem exec_first_digits {s : ViewController D} (h : s.isFinishedTypingNumber = true)
    (d : Fin 10) (ds : List (Fin 10)) :
    exec (press P) s (digitKeys (d :: ds)) =
      .ok { s with displayLabel := digitChars (d :: ds), isFinishedTypingNumber := false } := by
  show exec (press P) s (.number (.digit d) :: digitKeys ds) = _
  rw [exec_cons_ok _ (press_first (.digit d) h), exec_digits rfl]
  rfl

end Typing

/-! ### The chain -/

inductive BinaryOperator where
  | plus
  | minus
  | times
  | dividedBy
  deriving DecidableEq, Repr

def BinaryOperator.operation : BinaryOperator → CalculatorOperation
  | .plus => .addition
  | .minus => .subtraction
  | .times => .multiplication
  | .dividedBy => .division

def BinaryOperator.apply : BinaryOperator → ℚ → ℚ → ℚ
  | .plus, x, y => x + y
  | .minus, x, y => x - y
  | .times, x, y => x * y
  | .dividedBy, x, y => x / y

/- The keys of `a0 o1 a1 ... on an`, without the final '='. -/
def chainKeys (a0 : Operand) (rest : List (BinaryOperator × Operand)) : List Key :=
  a0.keys ++ rest.flatMap fun p => .operation p.1.operation :: p.2.keys

/-- `((a0 o1 a1) o2 a2) ... on an`. -/
def leftToRight (a0 : Operand) (rest : List (BinaryOperator × Operand)) : ℚ :=
  rest.foldl (fun v p => p.1.apply v p.2.value) a0.value

def lastOperand (a0 : Operand) (rest : List (BinaryOperator × Operand)) : Operand :=
  (rest.getLast?.map Prod.snd).getD a0

theorem operation_isBinary (o : BinaryOperator) : o.operation.isBinary = true := by
  cases o <;> rfl

theorem chainKeys_concat (a0 : Operand) (rest : List (BinaryOperator × Operand))
    (o : BinaryOperator) (a : Operand) :
    chainKeys a0 (rest ++ [(o, a)]) =
      chainKeys a0 rest ++ (.operation o.operation :: a.keys) := by
  simp [chainKeys]

theorem leftToRight_concat (a0 : Operand) (rest : List (BinaryOperator × Operand))
    (o : BinaryOperator) (a : Operand) :
    leftToRight a0 (rest ++ [(o, a)]) = o.apply (leftToRight a0 rest) a.value := by
  simp [leftToRight]

theorem lastOperand_concat (a0 : Operand) (rest : List (BinaryOperator × Operand))
    (o : BinaryOperator) (a : Operand) : lastOperand a0 (rest ++ [(o, a)]) = a := by
  simp [lastOperand]

section Exact
variable {P : DoublePlatform ℚ} (hP : P.Exact)
include hP

/-- Typing an operand leaves its numeral on the display. -/
theorem exec_operand {s : ViewController ℚ} (h : s.isFinishedTypingNumber = true) (a : Operand) :
    exec (press P) s a.keys =
      .ok { s with displayLabel := a.decimal.text, isFinishedTypingNumber := false } := by
  cases hf : a.fraction with
  | none =>
    have htext : a.decimal.text = digitChars (a.first :: a.rest) :=
      Decimal.text_of_none (by simp [Operand.decimal, hf])
    simp only [Operand.keys, hf, List.append_nil]
    rw [exec_first_digits h, htext]
  | some f =>
    have htext : a.decimal.text = digitChars (a.first :: a.rest) ++ '.' :: digitChars f :=
      Decimal.text_of_some (by simp [Operand.decimal, hf])
    simp only [Operand.keys, hf]
    rw [exec_append_ok _ (exec_first_digits h a.first a.rest), htext]
    -- the point is let through: what is typed so far denotes a whole number
    have hv : P.ofText (digitChars (a.first :: a.rest)) =
        some (wholeDecimal a.first a.rest).value := hP.numeral (wholeDecimal a.first a.rest)
    have hwhole : P.beq (P.floor (wholeDecimal a.first a.rest).value)
        (wholeDecimal a.first a.rest).value = true := by
      rw [Decimal.value_whole rfl, hP.beq, hP.floor, Int.floor_intCast]
      exact decide_eq_true rfl
    have hpoint := press_point (P := P)
      (s := { s with displayLabel := digitChars (a.first :: a.rest), isFinishedTypingNumber := false })
      rfl hv
    rw [if_pos hwhole] at hpoint
    rw [exec_cons_ok _ hpoint, exec_digits rfl]
    simp

theorem perform_operator (o : BinaryOperator) (x y : ℚ) (number : Option ℚ) :
    Calculator.performTwoNumCalculation P ⟨number, some (x, o.operation)⟩ y =
      some (o.apply x y) := by
  cases o
  case plus => exact congrArg some (hP.add x y)
  case minus => exact congrArg some (hP.sub x y)
  case times => exact congrArg some (hP.mul x y)
  case dividedBy => exact congrArg some (hP.div x y)

/-- Before '=': the last operand is on the display, and the pending slot holds
the operand before it with the last operator. -/
theorem exec_chain (a0 : Operand) (rest : List (BinaryOperator × Operand)) :
    ∃ s : ViewController ℚ, exec (press P) launch (chainKeys a0 rest) = .ok s ∧
      s.displayLabel = (lastOperand a0 rest).decimal.text ∧
      ∀ init o a, rest = init ++ [(o, a)] → s.calculator.intermediateCalculation =
        some ((lastOperand a0 init).value, o.operation) := by
  induction rest using List.reverseRecOn with
  | nil =>
    refine ⟨_, by simpa [chainKeys] using exec_operand hP (s := launch) rfl a0, rfl, ?_⟩
    intro init o a h
    simp at h
  | append_singleton rest p ih =>
    obtain ⟨o, a⟩ := p
    obtain ⟨s, hs, hdisplay, _⟩ := ih
    have hv : P.ofText s.displayLabel = some (lastOperand a0 rest).value := by
      rw [hdisplay]
      exact hP.numeral _
    have hop : press P s (.operation o.operation) =
        .ok ⟨P.clean (lastOperand a0 rest).value, true,
          ⟨some (lastOperand a0 rest).value,
            some ((lastOperand a0 rest).value, o.operation)⟩⟩ := by
      rw [press_operation _ hv, operationPressed_binary P _ _ (operation_isBinary o)]
    refine ⟨⟨a.decimal.text, false, ⟨some (lastOperand a0 rest).value,
      some ((lastOperand a0 rest).value, o.operation)⟩⟩, ?_, ?_, ?_⟩
    · rw [chainKeys_concat, exec_append_ok _ hs, exec_cons_ok _ hop, exec_operand hP rfl]
    · rw [lastOperand_concat]
    · intro init o' a' h
      have h' := List.append_inj' h rfl
      have hp : (o, a) = (o', a') := List.singleton_inj.mp h'.2
      rw [Prod.mk.injEq] at hp
      rw [← h'.1, ← hp.1]

/-- '=' applies the last operator to the last two operands. -/
theorem exec_chain_compute (a0 : Operand) (init : List (BinaryOperator × Operand))
    (o : BinaryOperator) (a : Operand) :
    ∃ s : ViewController ℚ,
      exec (press P) launch (chainKeys a0 (init ++ [(o, a)]) ++ [.operation .compute]) = .ok s ∧
      s.displayLabel = P.clean (o.apply (lastOperand a0 init).value a.value) := by
  obtain ⟨s, hs, hdisplay, hpending⟩ := exec_chain hP a0 (init ++ [(o, a)])
  have hv : P.ofText s.displayLabel = some a.value := by
    rw [hdisplay, lastOperand_concat]
    exact hP.numeral _
  have hshown : s.calculator.performTwoNumCalculation P a.value =
      some (o.apply (lastOperand a0 init).value a.value) := by
    rw [← perform_operator hP o _ _ s.calculator.number, ← hpending init o a rfl]
  refine ⟨⟨P.clean (o.apply (lastOperand a0 init).value a.value), true,
    s.calculator.setNumber a.value⟩, ?_, rfl⟩
  rw [exec_concat_ok _ hs, press_operation _ hv, operationPressed_compute, hshown]

/-- The display after '=' is the left-to-right value exactly when replacing all
but the last operation by its last operand changes nothing. -/
theorem chained_arithmetic_iff (a0 : Operand) (init : List (BinaryOperator × Operand))
    (o : BinaryOperator) (a : Operand)
    (hdivisor : ∀ p ∈ init ++ [(o, a)], p.1 = .dividedBy → p.2.value ≠ 0)
    (hclean : P.ofText (P.clean (o.apply (lastOperand a0 init).value a.value)) =
      some (o.apply (lastOperand a0 init).value a.value)) :
    (∃ s, exec (press P) launch (chainKeys a0 (init ++ [(o, a)]) ++ [.operation .compute]) = .ok s ∧
        P.ofText s.displayLabel = some (leftToRight a0 (init ++ [(o, a)]))) ↔
      leftToRight a0 init = (lastOperand a0 init).value ∨ (o = .times ∧ a.value = 0) := by
  obtain ⟨s, hs, hdisplay⟩ := exec_chain_compute hP a0 init o a
  have hshown : (∃ r, exec (press P) launch
        (chainKeys a0 (init ++ [(o, a)]) ++ [.operation .compute]) = .ok r ∧
        P.ofText r.displayLabel = some (leftToRight a0 (init ++ [(o, a)]))) ↔
      o.apply (lastOperand a0 init).value a.value = o.apply (leftToRight a0 init) a.value := by
    rw [leftToRight_concat]
    constructor
    · intro h
      obtain ⟨r, hr, hread⟩ := h
      rw [hs] at hr
      cases hr
      rw [hdisplay, hclean] at hread
      exact Option.some.inj hread
    · intro h
      exact ⟨s, hs, by rw [hdisplay, hclean, h]⟩
  rw [hshown, eq_comm]
  have ha : o = .dividedBy → a.value ≠ 0 := hdivisor (o, a) (by simp)
  cases o
  case plus => simp [BinaryOperator.apply]
  case minus => simp [BinaryOperator.apply]
  case times => simp [BinaryOperator.apply]
  case dividedBy => simp [BinaryOperator.apply, div_left_inj' (ha rfl)]

end Exact

/- 0 + 3 + 4 = shows 7; 2 + 3 + 4 = shows 7 instead of 9. -/
def zero : Operand := ⟨0, [], none⟩
def two : Operand := ⟨2, [], none⟩
def three : Operand := ⟨3, [], none⟩
def four : Operand := ⟨4, [], none⟩

theorem zero_plus_three_plus_four :
    ∃ s, exec (press decimalPlatform) launch
        (chainKeys zero ([(.plus, three)] ++ [(.plus, four)]) ++ [.operation .compute]) = .ok s ∧
      decimalPlatform.ofText s.displayLabel =
        some (leftToRight zero ([(.plus, three)] ++ [(.plus, four)])) :=
  (chained_arithmetic_iff decimalPlatform_exact zero [(.plus, three)] .plus four (by simp)
    (by decide +kernel)).mpr (Or.inl (by decide +kernel))

theorem two_plus_three_plus_four :
    ¬ ∃ s, exec (press decimalPlatform) launch
        (chainKeys two [(.plus, three), (.plus, four)] ++ [.operation .compute]) = .ok s ∧
      decimalPlatform.ofText s.displayLabel =
        some (leftToRight two [(.plus, three), (.plus, four)]) := by
  intro h
  obtain ⟨s, hs, hread⟩ := h
  have hseven : (exec (press decimalPlatform) launch
      (chainKeys two [(.plus, three), (.plus, four)] ++ [.operation .compute])).map
        (fun r => decimalPlatform.ofText r.displayLabel) = .ok (some 7) := by decide +kernel
  rw [hs] at hseven
  have h7 : decimalPlatform.ofText s.displayLabel = some 7 := Except.ok.inj hseven
  have h9 : leftToRight two [(.plus, three), (.plus, four)] = 9 := by decide +kernel
  rw [h7, h9] at hread
  exact absurd hread (by decide +kernel)

end PracticeApps.CalculatorApp
