import PracticeApps.Library.Rounding

/-!
# BMICalculator.swift and the result screen

Numbers are exact rationals, texts are lists of characters.
-/

namespace PracticeApps.BMIApp
open DecimalText Rounding

inductive Gender where
  | male
  | female
  deriving DecidableEq, Repr

inductive BMI where
  | underweight
  | normal
  | marginallyOverweight
  | overweight
  | obese
  | areYouHuman
  deriving DecidableEq, Repr

structure UIColor where
  red : ℚ
  green : ℚ
  blue : ℚ
  alpha : ℚ
  deriving DecidableEq

namespace BMI

def bmiSuggestion : BMI → String
  | .underweight => "You should eat more!"
  | .normal => "Maintain your diet!"
  | .marginallyOverweight => "Careful! You're almost obese!"
  | .overweight => "Watch your diet!"
  | .obese => "You should exercise already and watch your diet fatso!"
  | .areYouHuman => "Are you sure you're a human?"

def color : BMI → UIColor
  | .underweight => ⟨0.4098633528, 0.8456347585, 1, 1⟩
  | .normal => ⟨0.5843137503, 0.8235294223, 0.4196078479, 1⟩
  | .marginallyOverweight => ⟨0.9686274529, 0.78039217, 0.3450980484, 1⟩
  | .overweight => ⟨0.9372549057, 0.3490196168, 0.1921568662, 1⟩
  | .obese => ⟨0.7450980544, 0.1568627506, 0.07450980693, 1⟩
  | .areYouHuman => ⟨0.3176470697, 0.07450980693, 0.02745098062, 1⟩

/- The `switch` over the ranges of one gender; below the first range is the default. -/
def ranged (underweight normal marginallyOverweight overweight obese bmiValue : ℚ) : BMI :=
  if underweight ≤ bmiValue ∧ bmiValue < normal then .underweight
  else if normal ≤ bmiValue ∧ bmiValue < marginallyOverweight then .normal
  else if marginallyOverweight ≤ bmiValue ∧ bmiValue < overweight then .marginallyOverweight
  else if overweight ≤ bmiValue ∧ bmiValue < obese then .overweight
  else if obese ≤ bmiValue then .obese
  else .areYouHuman

def getBMIDefinition (gender : Gender) (bmiValue : ℚ) : BMI :=
  match gender with
  | .male => ranged 18.5 20.7 26.4 27.8 31.1 bmiValue
  | .female => ranged 18.5 19.1 25.8 27.3 32.3 bmiValue

end BMI

structure BMICalculator where
  height : ℚ
  weight : ℚ
  gender : Gender

namespace BMICalculator

def getBMIString (c : BMICalculator) : Text :=
  let bmi := c.weight / c.height ^ 2
  formatFixed 1 bmi

def getBMI (c : BMICalculator) : ℚ :=
  let bmi := c.weight / c.height ^ 2
  let divisor := 10 ^ 1
  (roundHalfAway (bmi * divisor) : ℚ) / divisor

def getBMICategory (c : BMICalculator) : BMI := BMI.getBMIDefinition c.gender c.getBMI

def getSuggestion (c : BMICalculator) : String := c.getBMICategory.bmiSuggestion

def getColor (c : BMICalculator) : UIColor := c.getBMICategory.color

end BMICalculator

/-! ### The screens -/

structure ResultView where
  bmiLabel : Text
  suggestionLabel : String
  backgroundColor : UIColor

/- `ResultViewController.setupView` -/
def setupView (bmiCalculator : BMICalculator) : ResultView :=
  { bmiLabel := bmiCalculator.getBMIString
    suggestionLabel := bmiCalculator.getSuggestion
    backgroundColor := bmiCalculator.getColor }

/- `MainBMIViewController.calculateButtonPressed`, from the values of the two sliders and
the selected segment. -/
def selectedGender (selectedSegmentIndex : ℕ) : Gender :=
  if selectedSegmentIndex = 0 then .male else .female

def calculateButtonPressed (heightSlider weightSlider : ℚ) (selectedSegmentIndex : ℕ) : ResultView :=
  setupView
    { height := heightSlider, weight := weightSlider, gender := selectedGender selectedSegmentIndex }

end PracticeApps.BMIApp
