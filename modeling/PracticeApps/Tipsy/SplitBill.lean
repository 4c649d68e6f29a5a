import PracticeApps.Library.EventMachine
import PracticeApps.Library.Rounding

/-!
# SplitBill.swift, ResultsViewController.swift, CalculatorViewController.swift

Amounts are exact rationals, texts of numbers are lists of characters.
-/

namespace PracticeApps.Tipsy
open DecimalText EventMachine

/-! ### SplitBill.swift -/

inductive TipPercentage where
  | zero
  | ten
  | twenty
  deriving DecidableEq, Repr

namespace TipPercentage

def rawValue : TipPercentage → ℤ
  | .zero => 0
  | .ten => 10
  | .twenty => 20

def ofRawValue (rawValue : ℤ) : Option TipPercentage :=
  if rawValue = 0 then some .zero
  else if rawValue = 10 then some .ten
  else if rawValue = 20 then some .twenty
  else none

def value (t : TipPercentage) : ℤ := t.rawValue

def decimalValue (t : TipPercentage) : ℚ := t.rawValue / 100

end TipPercentage

structure SplitBill where
  amount : ℚ
  numOfPeople : ℤ
  selectedTip : TipPercentage
  deriving DecidableEq

namespace SplitBill

def calculateTotalPerPerson (bill : SplitBill) : ℚ :=
  let total : ℚ := 0
  let total :=
    if bill.selectedTip ≠ .zero then bill.amount + bill.amount * bill.selectedTip.decimalValue
    else total + bill.amount
  total / bill.numOfPeople

def getSplitMessage (bill : SplitBill) : String :=
  if bill.numOfPeople > 1 then
    "Split between " ++ toString bill.numOfPeople ++ " people, with " ++
      toString bill.selectedTip.value ++ "% tip."
  else "Total amount for 1 person, with " ++ toString bill.selectedTip.value ++ "% tip."

end SplitBill

/-! ### ResultsViewController.swift -/

structure ResultsViewController where
  totalLabel : Text
  settingsLabel : String
  deriving DecidableEq

def ResultsViewController.setupView (splitBill : Option SplitBill) : ResultsViewController :=
  { totalLabel := formatFixed 2 ((splitBill.map SplitBill.calculateTotalPerPerson).getD 0)
    settingsLabel := (splitBill.map SplitBill.getSplitMessage).getD "" }

/-! ### CalculatorViewController.swift -/

inductive TipButton where
  | zeroPctButton
  | tenPctButton
  | twentyPctButton
  deriving DecidableEq, Repr

/- The tags of Main.storyboard. -/
def TipButton.tag : TipButton → ℤ
  | .zeroPctButton => 0
  | .tenPctButton => 10
  | .twentyPctButton => 20

/- `selected` is the tip button that is shown as selected; `results` are the results
screens presented so far, `alerts` the alerts. -/
structure CalculatorViewController where
  billTextField : Text
  selected : TipButton
  splitNumberLabel : String
  selectedTip : TipPercentage
  numOfPeople : ℕ
  alerts : List (String × String)
  results : List ResultsViewController
  deriving DecidableEq

inductive Trap where
  | notAUInt (value : ℚ)
  | notAnInt (numOfPeople : ℕ)
  deriving DecidableEq

inductive Event where
  | typed (text : Text)
  | tipChanged (sender : TipButton)
  | stepperValueChanged (value : ℚ)
  | calculateButtonPressed
  deriving DecidableEq

/- The texts of Main.storyboard. -/
def viewDidLoad : CalculatorViewController :=
  { billTextField := [], selected := .tenPctButton, splitNumberLabel := "1", selectedTip := .ten,
    numOfPeople := 1, alerts := [], results := [] }

def tipChanged (sender : TipButton) (s : CalculatorViewController) : CalculatorViewController :=
  match TipPercentage.ofRawValue sender.tag with
  | none => s
  | some selectedTip => { s with selectedTip := selectedTip, selected := sender }

/- `UInt(sender.value)` truncates and traps outside the range of the type. -/
def stepperValueChanged (value : ℚ) (s : CalculatorViewController) :
    Except Trap CalculatorViewController :=
  if -1 < value ∧ value < 2 ^ 64 then
    let numOfPeople := ⌊value⌋.toNat
    .ok { s with numOfPeople := numOfPeople, splitNumberLabel := toString numOfPeople }
  else .error (.notAUInt value)

def showNoInputAmountAlert (s : CalculatorViewController) : CalculatorViewController :=
  { s with alerts := s.alerts ++ [("Notice", "Enter valid amount!")] }

/- `double` is `Double(String)`. -/
def calculateButtonPressed (double : Text → Option ℚ) (s : CalculatorViewController) :
    Except Trap CalculatorViewController :=
  match double s.billTextField with
  | none => .ok (showNoInputAmountAlert s)
  | some amount =>
    if s.numOfPeople < 2 ^ 63 then
      let splitBill : SplitBill :=
        { amount := amount, numOfPeople := s.numOfPeople, selectedTip := s.selectedTip }
      .ok { s with results := s.results ++ [ResultsViewController.setupView (some splitBill)] }
    else .error (.notAnInt s.numOfPeople)

def handle (double : Text → Option ℚ) (s : CalculatorViewController) :
    Event → Except Trap CalculatorViewController
  | .typed text => .ok { s with billTextField := text }
  | .tipChanged sender => .ok (tipChanged sender s)
  | .stepperValueChanged value => stepperValueChanged value s
  | .calculateButtonPressed => calculateButtonPressed double s

/- The stepper of Main.storyboard goes from 1 to 20000. -/
def Delivered (_ : CalculatorViewController) : Event → Prop
  | .stepperValueChanged value => 1 ≤ value ∧ value ≤ 20000
  | _ => True

instance (s : CalculatorViewController) (e : Event) : Decidable (Delivered s e) := by
  cases e <;> unfold Delivered <;> infer_instance

end PracticeApps.Tipsy
