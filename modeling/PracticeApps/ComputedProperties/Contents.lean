import PracticeApps.Library.TrappingInt

/-!
# ComputedProperties.playground

The variables of the playground and what it prints. `Int` has 64 bits.
-/

namespace PracticeApps.ComputedProperties
open TrappingInt

structure Contents where
  pizzaInInches : BitVec 64
  numberOfPeople : BitVec 64
  printed : List String
  deriving DecidableEq

def slicesPerPerson : BitVec 64 := 5

def print (line : String) (s : Contents) : Contents := { s with printed := s.printed ++ [line] }

/- The assignment and its `didSet`, which does not run again for its own assignment. -/
def setPizzaInInches (newValue : BitVec 64) (s : Contents) : Contents :=
  let s := { s with pizzaInInches := newValue }
  if 18 ≤ s.pizzaInInches.toInt then
    let s := print "Invalid size specified, pizzaInInches set to 18" s
    { s with pizzaInInches := 18 }
  else s

def setNumberOfPeople (newValue : BitVec 64) (s : Contents) : Contents :=
  { s with numberOfPeople := newValue }

def numberOfSlices (s : Contents) : Except ArithmeticTrap (BitVec 64) := sub s.pizzaInInches 4

def setNumberOfSlices (newValue : BitVec 64) (s : Contents) : Contents :=
  print ("numberOfSlices now has a new value which is " ++ toString newValue.toInt) s

/- The first division of the getter below. -/
def numberOfPeopleFedPerPizza (s : Contents) : Except ArithmeticTrap (BitVec 64) := do
  let numberOfSlices ← numberOfSlices s
  div numberOfSlices slicesPerPerson

def numberOfPizza (s : Contents) : Except ArithmeticTrap (BitVec 64) := do
  let numberOfPeopleFedPerPizza ← numberOfPeopleFedPerPizza s
  div s.numberOfPeople numberOfPeopleFedPerPizza

def setNumberOfPizza (newValue : BitVec 64) (s : Contents) : Except ArithmeticTrap Contents := do
  let numberOfSlices ← numberOfSlices s
  let totalSlices ← mul numberOfSlices newValue
  let numberOfPeople ← div totalSlices slicesPerPerson
  .ok { s with numberOfPeople := numberOfPeople }

/- The playground from top to bottom. -/
def contents : Except ArithmeticTrap Contents := do
  let s : Contents := { pizzaInInches := 12, numberOfPeople := 6, printed := [] }
  let s := setPizzaInInches 33 s
  let s := print (toString s.pizzaInInches.toInt) s
  let s ← setNumberOfPizza 4 s
  let s := print (toString s.numberOfPeople.toInt) s
  let s := setNumberOfSlices 13 s
  let numberOfSlices ← numberOfSlices s
  .ok (print (toString numberOfSlices.toInt) s)

/-! ### What each operation does -/

/- The clamp is one-sided. -/
theorem setPizzaInInches_toInt (newValue : BitVec 64) (s : Contents) :
    (setPizzaInInches newValue s).pizzaInInches.toInt = min newValue.toInt 18 := by
  unfold setPizzaInInches print
  dsimp only
  split
  · show (18 : ℤ) = min newValue.toInt 18
    omega
  · show newValue.toInt = min newValue.toInt 18
    omega

theorem numberOfSlices_ok {s : Contents} (h : -2 ^ 63 ≤ s.pizzaInInches.toInt - 4) :
    ∃ slices, numberOfSlices s = .ok slices ∧ slices.toInt = s.pizzaInInches.toInt - 4 := by
  have hhigh : s.pizzaInInches.toInt - 4 < 2 ^ 63 := by
    have := BitVec.toInt_lt (x := s.pizzaInInches)
    omega
  exact ofExact_fits (w := 64) (by decide) h hhigh

theorem numberOfSlices_overflow {s : Contents} (h : s.pizzaInInches.toInt - 4 < -2 ^ 63) :
    numberOfSlices s = .error .overflow :=
  ofExact_overflow (w := 64) (Or.inl h)

theorem numberOfPeopleFedPerPizza_ok {s : Contents} {slices : BitVec 64}
    (h : numberOfSlices s = .ok slices) :
    ∃ fed, numberOfPeopleFedPerPizza s = .ok fed ∧ fed.toInt = slices.toInt.tdiv 5 := by
  obtain ⟨fed, hfed, hvalue⟩ :=
    div_ok (x := slices) (y := slicesPerPerson) (by decide) (Or.inr (by decide))
  refine ⟨fed, ?_, hvalue⟩
  unfold numberOfPeopleFedPerPizza
  rw [bind_of_ok h]
  exact hfed

theorem numberOfPizza_zero {s : Contents} {fed : BitVec 64}
    (h : numberOfPeopleFedPerPizza s = .ok fed) (hzero : fed.toInt = 0) :
    numberOfPizza s = .error .divisionByZero := by
  have hfed : fed = 0 := BitVec.toInt_inj.mp hzero
  unfold numberOfPizza
  rw [bind_of_ok h, hfed]
  exact div_zero s.numberOfPeople

theorem numberOfPizza_ok {s : Contents} {fed : BitVec 64}
    (h : numberOfPeopleFedPerPizza s = .ok fed) (hne : fed.toInt ≠ 0)
    (hpeople : 0 ≤ s.numberOfPeople.toInt) :
    ∃ pizzas, numberOfPizza s = .ok pizzas ∧
      pizzas.toInt = s.numberOfPeople.toInt.tdiv fed.toInt := by
  have hfed : fed ≠ 0 := fun hzero => hne (by rw [hzero]; rfl)
  obtain ⟨pizzas, hpizzas, hvalue⟩ := div_ok_of_nonneg (w := 64) (by decide) hpeople hfed
  refine ⟨pizzas, ?_, hvalue⟩
  unfold numberOfPizza
  rw [bind_of_ok h]
  exact hpizzas

theorem setNumberOfPizza_ok {s : Contents} {slices k : BitVec 64}
    (h : numberOfSlices s = .ok slices) (hlow : -2 ^ 63 ≤ slices.toInt * k.toInt)
    (hhigh : slices.toInt * k.toInt < 2 ^ 63) :
    ∃ people : BitVec 64, setNumberOfPizza k s = .ok { s with numberOfPeople := people } ∧
      people.toInt = (slices.toInt * k.toInt).tdiv 5 := by
  obtain ⟨total, htotal, hproduct⟩ := ofExact_fits (w := 64) (by decide) hlow hhigh
  obtain ⟨people, hpeople, hvalue⟩ :=
    div_ok (x := total) (y := slicesPerPerson) (by decide) (Or.inr (by decide))
  have hmul : mul slices k = .ok total := htotal
  rw [hproduct] at hvalue
  refine ⟨people, ?_, hvalue⟩
  unfold setNumberOfPizza
  rw [bind_of_ok h, bind_of_ok hmul, bind_of_ok hpeople]

theorem setNumberOfPizza_overflow {s : Contents} {slices k : BitVec 64}
    (h : numberOfSlices s = .ok slices) (hhigh : 2 ^ 63 ≤ slices.toInt * k.toInt) :
    setNumberOfPizza k s = .error .overflow := by
  have hmul : mul slices k = .error .overflow := ofExact_overflow (w := 64) (Or.inr hhigh)
  unfold setNumberOfPizza
  rw [bind_of_ok h, bind_of_error hmul]

example : contents.toOption.map Contents.printed =
    some ["Invalid size specified, pizzaInInches set to 18", "18", "11",
      "numberOfSlices now has a new value which is 13", "14"] := by decide +kernel

end PracticeApps.ComputedProperties
