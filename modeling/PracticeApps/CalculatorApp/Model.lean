import PracticeApps.CalculatorApp.Platform

/-!
# The calculator model (Calculator.swift, CalculatorEnum.swift)

`Calculator` holds the last number set and at most one pending operation.
`operationPressed` answers one operation key; `none` is Swift's `nil`.
-/

namespace PracticeApps.CalculatorApp
open DecimalText

inductive CalculatorOperation where
  | ac
  | negativePositive
  | percent
  | addition
  | subtraction
  | multiplication
  | division
  | compute
  deriving DecidableEq, Repr

/-- `CalculatorOperation.init?` (CalculatorEnum.swift:20-41). -/
def CalculatorOperation.ofTitle (value : Text) : Option CalculatorOperation :=
  let lowercased := value.map Char.toLower
  if lowercased = ['a', 'c'] then some .ac
  else if lowercased = ['+', '/', '-'] then some .negativePositive
  else if lowercased = ['%'] then some .percent
  else if lowercased = ['÷'] then some .division
  else if lowercased = ['×'] then some .multiplication
  else if lowercased = ['-'] then some .subtraction
  else if lowercased = ['+'] then some .addition
  else if lowercased = ['='] then some .compute
  else none

variable {D : Type}

structure Calculator (D : Type) where
  number : Option D
  intermediateCalculation : Option (D × CalculatorOperation)
  deriving DecidableEq

def Calculator.new : Calculator D := ⟨none, none⟩

def Calculator.setNumber (c : Calculator D) (number : D) : Calculator D :=
  { c with number := some number }

/-- `performTwoNumCalculation` (Calculator.swift:55-80). -/
def Calculator.performTwoNumCalculation (P : DoublePlatform D) (c : Calculator D) (n2 : D) :
    Option D :=
  match c.intermediateCalculation with
  | none => none
  | some (n1, operation) =>
    match operation with
    | .addition => some (P.add n1 n2)
    | .subtraction => some (P.sub n1 n2)
    | .multiplication => some (P.mul n1 n2)
    | .division => some (P.div n1 n2)
    | _ => none

/-- `operationPressed` (Calculator.swift:22-52): the value shown and the model after it. -/
def Calculator.operationPressed (P : DoublePlatform D) (c : Calculator D)
    (operation : CalculatorOperation) : Option D × Calculator D :=
  match c.number with
  | none => (none, c)
  | some n =>
    match operation with
    | .ac => (some (P.intLiteral 0), c)
    | .negativePositive => (some (P.mul n (P.intLiteral (-1))), c)
    | .percent => (some (P.div n (P.intLiteral 100)), c)
    | .addition | .subtraction | .multiplication | .division =>
      (some n, { c with intermediateCalculation := some (n, operation) })
    | .compute => (c.performTwoNumCalculation P n, c)

/- The four operations that fill the pending slot. -/
def CalculatorOperation.isBinary : CalculatorOperation → Bool
  | .addition | .subtraction | .multiplication | .division => true
  | _ => false

/- What each kind of key does once a number is set; later modules use these
and never unfold `operationPressed`. -/
section Keys
variable (P : DoublePlatform D) (c : Calculator D) (n : D)

theorem operationPressed_binary {op : CalculatorOperation} (hop : op.isBinary = true) :
    (c.setNumber n).operationPressed P op = (some n, ⟨some n, some (n, op)⟩) := by
  cases op <;> first | rfl | cases hop

theorem operationPressed_compute :
    (c.setNumber n).operationPressed P .compute =
      (c.performTwoNumCalculation P n, c.setNumber n) := rfl

/- AC, the sign key and % change neither the pending slot nor fail. -/
theorem operationPressed_unary {op : CalculatorOperation} (hop : op.isBinary = false)
    (hc : op ≠ .compute) :
    ∃ value, ∀ d : Calculator D,
      (d.setNumber n).operationPressed P op = (some value, d.setNumber n) := by
  cases op
  case ac => exact ⟨P.intLiteral 0, fun _ => rfl⟩
  case negativePositive => exact ⟨P.mul n (P.intLiteral (-1)), fun _ => rfl⟩
  case percent => exact ⟨P.div n (P.intLiteral 100), fun _ => rfl⟩
  case compute => exact absurd rfl hc
  all_goals cases hop

end Keys

end PracticeApps.CalculatorApp
