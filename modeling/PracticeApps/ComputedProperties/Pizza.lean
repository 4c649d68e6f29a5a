import Mathlib.Algebra.Order.Ring.Int
import Mathlib.Algebra.Order.Group.Abs
import Mathlib.Tactic.Linarith
import Mathlib.Tactic.LinearCombination
import Mathlib.Tactic.Ring
import PracticeApps.ComputedProperties.Contents

/-!
# Pizzas and people

The getter of `numberOfPizza` rounds twice, and down both times: people per
pizza first, then pizzas. The setter rounds once, the people fed by all slices.
They agree while the slices left over on all pizzas do not feed a pizza's worth
of people more, and the pizzas suffice while the slices left over make up for
the people left over.
-/

namespace PracticeApps.ComputedProperties
open TrappingInt

/-- The slices of a pizza, once its size has been clamped. -/
def slicesAt (size : BitVec 64) : ℤ := min size.toInt 18 - 4

/-! ### Remainders -/

theorem div_div_eq_iff {p r k : ℤ} (hp : 0 < p) (hr : 0 ≤ r) (hk : 0 ≤ k) :
    (5 * p + r) * k / 5 / p = k ↔ r * k < 5 * p := by
  have hsum : (5 * p + r) * k = r * k + k * p * 5 := by ring
  have hsplit : (5 * p + r) * k / 5 = r * k / 5 + k * p := by
    rw [hsum, Int.add_mul_ediv_right _ _ (by decide)]
  have hextra : 0 ≤ r * k / 5 := Int.ediv_nonneg (Int.mul_nonneg hr hk) (by decide)
  have hlt : r * k / 5 < p ↔ r * k < p * 5 := Int.ediv_lt_iff_lt_mul (by decide)
  rw [hsplit, Int.ediv_eq_iff_of_pos hp]
  omega

/- `f * q + ρ` people, `f` of whom one pizza of `5 * f + r` slices feeds. -/
theorem enough_iff {f q r ρ people slices : ℤ} (hf : 0 < f) (hpeople : people = f * q + ρ)
    (hslices : slices = 5 * f + r) :
    people * 5 ≤ q * slices ↔ slices * ρ ≤ people * r := by
  have hkey : people * r - slices * ρ = f * (q * slices - people * 5) := by
    linear_combination slices * hpeople - people * hslices
  have hsign : 0 ≤ f * (q * slices - people * 5) ↔ 0 ≤ q * slices - people * 5 :=
    mul_nonneg_iff_of_pos_left hf
  rw [← hkey] at hsign
  omega

theorem tdiv_five_of_nonpos {z : ℤ} (hz : z ≤ 0) : z.tdiv 5 = -(-z / 5) := by
  rw [← Int.tdiv_eq_ediv_of_nonneg (by omega : 0 ≤ -z), Int.neg_tdiv, Int.neg_neg]

theorem abs_tdiv_five (z : ℤ) : |z.tdiv 5| = |z| / 5 := by
  rcases Int.le_total 0 z with hz | hz
  · rw [Int.tdiv_eq_ediv_of_nonneg hz, abs_of_nonneg hz]
    exact abs_of_nonneg (by omega)
  · rw [tdiv_five_of_nonpos hz, abs_neg, abs_of_nonpos hz]
    exact abs_of_nonneg (by omega)

/- A negative size gives a negative number of pizzas of negative slices each. -/
theorem tdiv_tdiv_mul {people : ℤ} (hpeople : 0 ≤ people) (z : ℤ) :
    people.tdiv (z.tdiv 5) * z = people / (|z| / 5) * |z| := by
  rcases Int.le_total 0 z with hz | hz
  · rw [Int.tdiv_eq_ediv_of_nonneg hz, Int.tdiv_eq_ediv_of_nonneg hpeople, abs_of_nonneg hz]
  · rw [tdiv_five_of_nonpos hz, Int.tdiv_neg, Int.tdiv_eq_ediv_of_nonneg hpeople,
      abs_of_nonpos hz, Int.neg_mul, Int.mul_neg]

/-! ### Slices and people per pizza -/

theorem slices_ok {size : BitVec 64} (s : Contents) (h : -2 ^ 63 ≤ slicesAt size) :
    ∃ slices, numberOfSlices (setPizzaInInches size s) = .ok slices ∧
      slices.toInt = slicesAt size := by
  have hsize := setPizzaInInches_toInt size s
  unfold slicesAt at h ⊢
  rw [← hsize] at h ⊢
  exact numberOfSlices_ok h

theorem slices_overflow {size : BitVec 64} (s : Contents) (h : slicesAt size < -2 ^ 63) :
    numberOfSlices (setPizzaInInches size s) = .error .overflow := by
  unfold slicesAt at h
  rw [← setPizzaInInches_toInt size s] at h
  exact numberOfSlices_overflow h

theorem fed_overflow {size : BitVec 64} (s : Contents) (h : slicesAt size < -2 ^ 63) :
    numberOfPeopleFedPerPizza (setPizzaInInches size s) = .error .overflow := by
  unfold numberOfPeopleFedPerPizza
  exact bind_of_error (slices_overflow s h) _

/-- A pizza feeds at least one person. -/
def FeedsSomeone (s : Contents) : Prop :=
  ∃ fed, numberOfPeopleFedPerPizza s = .ok fed ∧ 1 ≤ fed.toInt

theorem feedsSomeone_iff (size : BitVec 64) (s : Contents) :
    FeedsSomeone (setPizzaInInches size s) ↔ 5 ≤ slicesAt size := by
  by_cases hfits : -2 ^ 63 ≤ slicesAt size
  · obtain ⟨slices, hslices, hvalue⟩ := slices_ok s hfits
    obtain ⟨fed, hfed, hfedvalue⟩ := numberOfPeopleFedPerPizza_ok hslices
    have hiff : FeedsSomeone (setPizzaInInches size s) ↔ 1 ≤ fed.toInt := by
      constructor
      · intro h
        obtain ⟨fed', hfed', hone⟩ := h
        rw [hfed] at hfed'
        cases hfed'
        exact hone
      · intro h
        exact ⟨fed, hfed, h⟩
    rw [hiff, hfedvalue, hvalue]
    rcases Int.le_total 0 (slicesAt size) with hz | hz
    · rw [Int.tdiv_eq_ediv_of_nonneg hz]
      omega
    · rw [tdiv_five_of_nonpos hz]
      omega
  · have herror := fed_overflow s (Int.not_le.mp hfits)
    constructor
    · intro h
      obtain ⟨fed, hfed, _⟩ := h
      rw [herror] at hfed
      cases hfed
    · intro h
      omega

/-! ### The setter and the getter -/

/-- The slices left over on `k` pizzas do not feed a pizza's worth of people, and all
slices can be counted. -/
def Agrees (slices k : ℤ) : Prop := slices % 5 * k < 5 * (slices / 5) ∧ slices * k < 2 ^ 63

instance (slices k : ℤ) : Decidable (Agrees slices k) := by unfold Agrees; infer_instance

/-- For every size with which a pizza feeds someone and every number of pizzas assigned,
reading it back gives that number exactly when the slices left over feed too few. -/
theorem setter_getter_agree_iff (s : Contents) (size k : BitVec 64) (hk : 0 ≤ k.toInt)
    (hfeeds : FeedsSomeone (setPizzaInInches size s)) :
    (setNumberOfPizza k (setPizzaInInches size s) >>= numberOfPizza) = .ok k ↔
      Agrees (slicesAt size) k.toInt := by
  have hfive := (feedsSomeone_iff size s).mp hfeeds
  have hcomputable : -2 ^ 63 ≤ slicesAt size := by omega
  obtain ⟨slices, hslices, hvalue⟩ := slices_ok s hcomputable
  obtain ⟨fed, hfed, hfedvalue⟩ := numberOfPeopleFedPerPizza_ok hslices
  have hnonneg : 0 ≤ slices.toInt * k.toInt := Int.mul_nonneg (by omega) hk
  unfold Agrees
  by_cases hfits : slices.toInt * k.toInt < 2 ^ 63
  · obtain ⟨people, hset, hpeople⟩ := setNumberOfPizza_ok hslices (by omega) hfits
    rw [Int.tdiv_eq_ediv_of_nonneg hnonneg] at hpeople
    rw [Int.tdiv_eq_ediv_of_nonneg (by omega)] at hfedvalue
    obtain ⟨pizzas, hpizzas, hcount⟩ :=
      numberOfPizza_ok (s := { setPizzaInInches size s with numberOfPeople := people }) hfed
        (by omega) (show 0 ≤ people.toInt by omega)
    have hread : pizzas.toInt = slicesAt size * k.toInt / 5 / (slicesAt size / 5) := by
      rw [hcount, Int.tdiv_eq_ediv_of_nonneg (show 0 ≤ people.toInt by omega)]
      show people.toInt / fed.toInt = _
      rw [hpeople, hfedvalue, hvalue]
    have hagree := div_div_eq_iff (p := slicesAt size / 5) (r := slicesAt size % 5) (k := k.toInt)
      (by omega) (by omega) hk
    rw [Int.mul_ediv_add_emod, ← hread] at hagree
    rw [bind_of_ok hset, hpizzas, Except.ok.injEq, ← BitVec.toInt_inj, hagree, ← hvalue]
    exact (and_iff_left hfits).symm
  · rw [bind_of_error (setNumberOfPizza_overflow hslices (Int.not_lt.mp hfits)), ← hvalue]
    exact iff_of_false (fun h => by cases h) (fun h => hfits h.2)

/- Fourteen slices for two people, with four slices left over. -/
theorem two_of_eighteen_agree :
    (setNumberOfPizza 2 (setPizzaInInches 18 ⟨12, 6, []⟩) >>= numberOfPizza) = .ok 2 :=
  (setter_getter_agree_iff ⟨12, 6, []⟩ 18 2 (by decide)
    ((feedsSomeone_iff 18 ⟨12, 6, []⟩).mpr (by decide +kernel))).mpr (by decide +kernel)

/- The values of the playground: 4 pizzas of 14 slices are read as 5. -/
theorem four_of_thirtythree_read_five :
    numberOfPeopleFedPerPizza (setPizzaInInches 33 ⟨12, 6, []⟩) = .ok 2 ∧
      (setNumberOfPizza 4 (setPizzaInInches 33 ⟨12, 6, []⟩) >>= numberOfPizza) = .ok 5 := by
  decide +kernel

/-! ### Enough for everyone -/

/-- The size can be computed with, a pizza feeds someone, and the slices left over on the
pizzas make up for the people left over. -/
def Suffices (slices people : ℤ) : Prop :=
  -2 ^ 63 ≤ slices ∧ 5 ≤ |slices| ∧
    |slices| * (people % (|slices| / 5)) ≤ people * (|slices| % 5)

instance (slices people : ℤ) : Decidable (Suffices slices people) := by
  unfold Suffices; infer_instance

/- From nine to eighteen inches a pizza feeds one person, or two; then an even number of
people has enough, and an odd one if the slices left over make up for the last person. -/
theorem suffices_clamped_iff {slices people : ℤ} (hlow : 5 ≤ slices) (hhigh : slices ≤ 14)
    (hpeople : 0 ≤ people) :
    Suffices slices people ↔
      slices < 10 ∨ people % 2 = 0 ∨ slices ≤ people * (slices - 10) := by
  have habs : |slices| = slices := abs_of_nonneg (by omega)
  unfold Suffices
  rw [habs]
  by_cases hone : slices < 10
  · have hfed : slices / 5 = 1 := by omega
    have hleft : 0 ≤ people * (slices % 5) := Int.mul_nonneg hpeople (by omega)
    rw [hfed, Int.emod_one, Int.mul_zero]
    exact iff_of_true ⟨by omega, hlow, hleft⟩ (Or.inl hone)
  · have hfed : slices / 5 = 2 := by omega
    have hrest : slices % 5 = slices - 10 := by omega
    have hleft : 0 ≤ people * (slices - 10) := Int.mul_nonneg hpeople (by omega)
    rw [hfed, hrest]
    rcases Int.emod_two_eq_zero_or_one people with heven | hodd
    · rw [heven, Int.mul_zero]
      exact iff_of_true ⟨by omega, hlow, hleft⟩ (Or.inr (Or.inl rfl))
    · rw [hodd, Int.mul_one]
      omega

/-- The pizzas that are read for `s` have slices for everyone. -/
def EnoughPizza (s : Contents) : Prop :=
  ∃ slices pizzas, numberOfSlices s = .ok slices ∧ numberOfPizza s = .ok pizzas ∧
    s.numberOfPeople.toInt * slicesPerPerson.toInt ≤ pizzas.toInt * slices.toInt

theorem enoughPizza_of_ok {s : Contents} {slices pizzas : BitVec 64}
    (hslices : numberOfSlices s = .ok slices) (hpizzas : numberOfPizza s = .ok pizzas) :
    EnoughPizza s ↔ s.numberOfPeople.toInt * 5 ≤ pizzas.toInt * slices.toInt := by
  constructor
  · intro h
    obtain ⟨slices', pizzas', hslices', hpizzas', henough⟩ := h
    rw [hslices] at hslices'
    rw [hpizzas] at hpizzas'
    cases hslices'
    cases hpizzas'
    exact henough
  · intro h
    exact ⟨slices, pizzas, hslices, hpizzas, h⟩

theorem not_enoughPizza_of_error {s : Contents} {t : ArithmeticTrap}
    (h : numberOfPizza s = .error t) : ¬ EnoughPizza s := by
  intro henough
  obtain ⟨_, pizzas, _, hpizzas, _⟩ := henough
  rw [h] at hpizzas
  cases hpizzas

/-- For every size assigned and every number of people, the getter does not trap and the
pizzas suffice exactly when `Suffices` says so; it divides by zero exactly when the clamped
size leaves fewer than five slices, either way. -/
theorem enough_pizza_iff (s : Contents) (size people : BitVec 64) (hpeople : 0 ≤ people.toInt) :
    (EnoughPizza (setNumberOfPeople people (setPizzaInInches size s)) ↔
        Suffices (slicesAt size) people.toInt) ∧
      (numberOfPizza (setNumberOfPeople people (setPizzaInInches size s)) =
          .error .divisionByZero ↔ |slicesAt size| < 5) := by
  have hslicesnonneg := abs_nonneg (slicesAt size)
  by_cases hfits : -2 ^ 63 ≤ slicesAt size
  · obtain ⟨slices, hslices, hvalue⟩ := slices_ok s hfits
    obtain ⟨fed, hfed, hfedvalue⟩ := numberOfPeopleFedPerPizza_ok hslices
    have hslices' : numberOfSlices (setNumberOfPeople people (setPizzaInInches size s)) =
      .ok slices := hslices
    have hfed' : numberOfPeopleFedPerPizza (setNumberOfPeople people (setPizzaInInches size s)) =
      .ok fed := hfed
    rw [hvalue] at hfedvalue
    have habs : |fed.toInt| = |slicesAt size| / 5 := by rw [hfedvalue, abs_tdiv_five]
    by_cases hfive : 5 ≤ |slicesAt size|
    · have hpos : 0 < |slicesAt size| / 5 := by omega
      have hne : fed.toInt ≠ 0 := by
        rw [← abs_pos, habs]
        exact hpos
      obtain ⟨pizzas, hpizzas, hcount⟩ := numberOfPizza_ok hfed' hne hpeople
      have hproduct : pizzas.toInt * slices.toInt =
          people.toInt / (|slicesAt size| / 5) * |slicesAt size| := by
        rw [hcount, hfedvalue, hvalue]
        exact tdiv_tdiv_mul hpeople (slicesAt size)
      have henough := enough_iff hpos (Int.mul_ediv_add_emod people.toInt _).symm
        (Int.mul_ediv_add_emod |slicesAt size| 5).symm
      rw [enoughPizza_of_ok hslices' hpizzas, hproduct]
      constructor
      · unfold Suffices
        rw [← henough]
        exact ⟨fun h => ⟨hfits, hfive, h⟩, fun h => h.2.2⟩
      · rw [hpizzas]
        exact iff_of_false (fun h => by cases h) (by omega)
    · have hzero : fed.toInt = 0 := by
        rw [← abs_eq_zero, habs]
        omega
      have herror := numberOfPizza_zero hfed' hzero
      exact ⟨iff_of_false (not_enoughPizza_of_error herror) (fun h => hfive h.2.1),
        iff_of_true herror (by omega)⟩
  · have hoverflow : numberOfPeopleFedPerPizza
        (setNumberOfPeople people (setPizzaInInches size s)) = .error .overflow :=
      fed_overflow s (Int.not_le.mp hfits)
    have herror : numberOfPizza (setNumberOfPeople people (setPizzaInInches size s)) =
        .error .overflow := by
      unfold numberOfPizza
      exact bind_of_error hoverflow _
    have hlarge : 5 ≤ |slicesAt size| := by
      rw [abs_of_nonpos (by omega)]
      omega
    refine ⟨iff_of_false (not_enoughPizza_of_error herror) (fun h => hfits h.1), ?_⟩
    rw [herror]
    exact iff_of_false (fun h => by cases h) (by omega)

/- Six people and twelve inches, the first values of the playground. -/
theorem six_people_have_enough :
    EnoughPizza (setNumberOfPeople 6 (setPizzaInInches 12 ⟨12, 6, []⟩)) :=
  (enough_pizza_iff ⟨12, 6, []⟩ 12 6 (by decide)).1.mpr
    ((suffices_clamped_iff (by decide) (by decide) (by decide)).mpr (Or.inl (by decide)))

/- Three people and the largest size: one pizza of 14 slices. Four inches have no slices. -/
theorem three_people_lack_a_slice :
    numberOfSlices (setNumberOfPeople 3 (setPizzaInInches 18 ⟨12, 6, []⟩)) = .ok 14 ∧
      numberOfPizza (setNumberOfPeople 3 (setPizzaInInches 18 ⟨12, 6, []⟩)) = .ok 1 ∧
      ¬ EnoughPizza (setNumberOfPeople 3 (setPizzaInInches 18 ⟨12, 6, []⟩)) ∧
      numberOfPizza (setNumberOfPeople 3 (setPizzaInInches 4 ⟨12, 6, []⟩)) =
        .error .divisionByZero := by
  have hslices : numberOfSlices (setNumberOfPeople 3 (setPizzaInInches 18 ⟨12, 6, []⟩)) =
      .ok 14 := by decide +kernel
  have hpizzas : numberOfPizza (setNumberOfPeople 3 (setPizzaInInches 18 ⟨12, 6, []⟩)) =
      .ok 1 := by decide +kernel
  have hlack : ¬ EnoughPizza (setNumberOfPeople 3 (setPizzaInInches 18 ⟨12, 6, []⟩)) := by
    rw [enoughPizza_of_ok hslices hpizzas]
    decide +kernel
  exact ⟨hslices, hpizzas, hlack, by decide +kernel⟩

end PracticeApps.ComputedProperties
