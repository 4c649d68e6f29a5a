import PracticeApps.CalculatorApp.Model
import PracticeApps.Library.EventMachine

/-!
# The calculator screen (Controller/ViewController.swift)

The display label is both the output and the store of the number being typed.
`numButtonPressed` and `calcButtonPressed` are the two actions, `press` sends a
key of the keypad to the action its storyboard entry names.
-/

namespace PracticeApps.CalculatorApp
open DecimalText EventMachine

variable {D : Type}

structure ViewController (D : Type) where
  displayLabel : Text
  isFinishedTypingNumber : Bool
  calculator : Calculator D
  deriving DecidableEq

/- The two `fatalError` calls of the screen. -/
inductive Trap where
  | displayLabelText
  | nilResult
  deriving DecidableEq, Repr

def Trap.message : Trap → String
  | .displayLabelText => "Cannot convert display label text to a Double"
  | .nilResult => "The result of the calculation is nil"

/- The storyboard's label text and the property defaults. -/
def launch : ViewController D := ⟨['0'], true, Calculator.new⟩

def validInput : List Text :=
  [['0'], ['1'], ['2'], ['3'], ['4'], ['5'], ['6'], ['7'], ['8'], ['9'], ['0'], ['.']]

/- The getter of `displayValue` (ViewController.swift:17-25). -/
def ViewController.displayValue (P : DoublePlatform D) (s : ViewController D) :
    Except Trap D :=
  match P.ofText s.displayLabel with
  | some numValue => .ok numValue
  | none => .error .displayLabelText

/-- `calcButtonPressed` (ViewController.swift:42-60). -/
def calcButtonPressed (P : DoublePlatform D) (s : ViewController D)
    (currentTitle : Option Text) : Except Trap (ViewController D) :=
  match currentTitle.bind CalculatorOperation.ofTitle with
  | none => .ok s
  | some operationPressed =>
    match s.displayValue P with
    | .error t => .error t
    | .ok number =>
      match (s.calculator.setNumber number).operationPressed P operationPressed with
      | (none, _) => .error .nilResult
      | (some value, calculator) => .ok ⟨P.clean value, true, calculator⟩

/-- `numButtonPressed` (ViewController.swift:63-82). -/
def numButtonPressed (P : DoublePlatform D) (s : ViewController D)
    (currentTitle : Option Text) : Except Trap (ViewController D) :=
  match currentTitle with
  | none => .ok s
  | some input =>
    if input ∉ validInput then .ok s
    else if s.isFinishedTypingNumber then
      .ok { s with displayLabel := input, isFinishedTypingNumber := false }
    else if input = ['.'] then
      match s.displayValue P with
      | .error t => .error t
      | .ok value =>
        if P.beq (P.floor value) value then
          .ok { s with displayLabel := s.displayLabel ++ input }
        else .ok s
    else .ok { s with displayLabel := s.displayLabel ++ input }

/-! ### The keypad -/

inductive NumberKey where
  | digit (d : Fin 10)
  | point
  deriving DecidableEq, Repr

inductive Key where
  | number (k : NumberKey)
  | operation (op : CalculatorOperation)
  deriving DecidableEq, Repr

def NumberKey.char : NumberKey → Char
  | .digit d => Nat.digitChar d
  | .point => '.'

/- The titles of the operation keys (Main.storyboard). -/
def operationTitle : CalculatorOperation → Text
  | .ac => ['A', 'C']
  | .negativePositive => ['+', '/', '-']
  | .percent => ['%']
  | .division => ['÷']
  | .multiplication => ['×']
  | .subtraction => ['-']
  | .addition => ['+']
  | .compute => ['=']

def press (P : DoublePlatform D) (s : ViewController D) : Key → Except Trap (ViewController D)
  | .number k => numButtonPressed P s (some [k.char])
  | .operation op => calcButtonPressed P s (some (operationTitle op))

theorem ofTitle_operationTitle (op : CalculatorOperation) :
    CalculatorOperation.ofTitle (operationTitle op) = some op := by
  cases op <;> decide

theorem numberKey_valid (k : NumberKey) : [k.char] ∈ validInput := by
  cases k with
  | point => decide
  | digit d => revert d; decide

theorem digit_char_ne_point (d : Fin 10) : (NumberKey.digit d).char ≠ '.' := by
  revert d; decide

theorem digit_char_isDigit (d : Fin 10) : (NumberKey.digit d).char.isDigit = true := by
  revert d; decide

/-! ### One press -/

section Press
variable {P : DoublePlatform D} {s : ViewController D}

/- The first key of a number replaces the display. -/
theorem press_first (k : NumberKey) (h : s.isFinishedTypingNumber = true) :
    press P s (.number k) = .ok { s with displayLabel := [k.char], isFinishedTypingNumber := false } := by
  simp only [press, numButtonPressed, numberKey_valid k, not_true_eq_false, ite_false, h, ite_true]

theorem press_digit (d : Fin 10) (h : s.isFinishedTypingNumber = false) :
    press P s (.number (.digit d)) =
      .ok { s with displayLabel := s.displayLabel ++ [(NumberKey.digit d).char] } := by
  have hne : ¬ [(NumberKey.digit d).char] = ['.'] := fun he =>
    digit_char_ne_point d (List.singleton_inj.mp he)
  simp only [press, numButtonPressed, numberKey_valid, not_true_eq_false, ite_false, h,
    Bool.false_eq_true, hne]

/- A later point is appended when the value typed so far is whole, else ignored. -/
theorem press_point {value : D} (h : s.isFinishedTypingNumber = false)
    (hv : P.ofText s.displayLabel = some value) :
    press P s (.number .point) =
      if P.beq (P.floor value) value then
        .ok { s with displayLabel := s.displayLabel ++ ['.'] }
      else .ok s := by
  have hvalid := numberKey_valid .point
  simp only [NumberKey.char] at hvalid
  simp only [press, NumberKey.char, numButtonPressed, hvalid, not_true_eq_false, ite_false, h,
    Bool.false_eq_true, ite_true, ViewController.displayValue, hv]

theorem press_point_unreadable (h : s.isFinishedTypingNumber = false)
    (hv : P.ofText s.displayLabel = none) :
    press P s (.number .point) = .error .displayLabelText := by
  have hvalid := numberKey_valid .point
  simp only [NumberKey.char] at hvalid
  simp only [press, NumberKey.char, numButtonPressed, hvalid, not_true_eq_false, ite_false, h,
    Bool.false_eq_true, ite_true, ViewController.displayValue, hv]

theorem press_number_calculator {k : NumberKey} {r : ViewController D}
    (h : press P s (.number k) = .ok r) : r.calculator = s.calculator := by
  cases hf : s.isFinishedTypingNumber with
  | true =>
    rw [press_first k hf] at h
    cases h
    rfl
  | false =>
    cases k with
    | digit d =>
      rw [press_digit d hf] at h
      cases h
      rfl
    | point =>
      cases hv : P.ofText s.displayLabel with
      | none => rw [press_point_unreadable hf hv] at h; cases h
      | some value =>
        rw [press_point hf hv] at h
        split at h <;> cases h <;> rfl

theorem press_operation_unreadable (op : CalculatorOperation)
    (hv : P.ofText s.displayLabel = none) :
    press P s (.operation op) = .error .displayLabelText := by
  simp only [press, calcButtonPressed, Option.bind_some, ofTitle_operationTitle,
    ViewController.displayValue, hv]

theorem press_operation {value : D} (op : CalculatorOperation)
    (hv : P.ofText s.displayLabel = some value) :
    press P s (.operation op) =
      match (s.calculator.setNumber value).operationPressed P op with
      | (none, _) => .error .nilResult
      | (some shown, calculator) => .ok ⟨P.clean shown, true, calculator⟩ := by
  simp only [press, calcButtonPressed, Option.bind_some, ofTitle_operationTitle,
    ViewController.displayValue, hv]

/- Whatever an operation key does not trap on, it prints with `clean`. -/
theorem press_operation_ok {op : CalculatorOperation} {r : ViewController D}
    (h : press P s (.operation op) = .ok r) :
    r.isFinishedTypingNumber = true ∧ ∃ shown, r.displayLabel = P.clean shown := by
  cases hv : P.ofText s.displayLabel with
  | none => rw [press_operation_unreadable op hv] at h; cases h
  | some value =>
    rw [press_operation op hv] at h
    split at h
    · cases h
    next shown calculator _ =>
      cases h
      exact ⟨rfl, shown, rfl⟩

theorem press_operation_error {op : CalculatorOperation} {t : Trap}
    (h : press P s (.operation op) = .error t) (hv : (P.ofText s.displayLabel).isSome) :
    t = .nilResult := by
  obtain ⟨value, hv⟩ := Option.isSome_iff_exists.mp hv
  rw [press_operation op hv] at h
  split at h <;> cases h
  rfl

end Press

end PracticeApps.CalculatorApp
