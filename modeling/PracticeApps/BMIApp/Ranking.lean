import PracticeApps.BMIApp.Verdict

/-!
# The ranking of the verdicts

The ranges of a gender follow one another without a gap, so the rank of a
verdict is the number of ranges that have begun. The quotient, its rounding and
the ranges all keep the order.
-/

namespace PracticeApps.BMIApp
open Rounding

def BMI.rank : BMI → ℕ
  | .areYouHuman => 0
  | .underweight => 1
  | .normal => 2
  | .marginallyOverweight => 3
  | .overweight => 4
  | .obese => 5

theorem rank_ofBand : ∀ n < 6, (ofBand n).rank = n := by decide

theorem rank_getBMIDefinition (gender : Gender) (v : ℚ) :
    (BMI.getBMIDefinition gender v).rank = band (thresholds gender) v := by
  rw [getBMIDefinition_eq]
  exact rank_ofBand _ (band_thresholds_lt gender v)

theorem rank_eq_zero_iff (b : BMI) : b.rank = 0 ↔ b = .areYouHuman := by
  cases b <;> decide

/- The first range begins at 18.5 for both genders. -/
theorem thresholds_ge (gender : Gender) : ∀ t ∈ thresholds gender, 18.5 ≤ t := by
  have htenths : ∀ z ∈ tenths gender, 185 ≤ z := by cases gender <;> decide
  intro t ht
  obtain ⟨z, hz, rfl⟩ := List.mem_map.mp ht
  have hle : ((185 : ℤ) : ℚ) ≤ (z : ℚ) := by exact_mod_cast htenths z hz
  push_cast at hle
  linarith

theorem first_threshold (gender : Gender) : 18.5 ∈ thresholds gender := by
  have htenths : 185 ∈ tenths gender := by cases gender <;> decide
  exact List.mem_map.mpr ⟨185, htenths, by norm_num⟩

/- No value is between two ranges: the default case is what is below the first. -/
theorem areYouHuman_iff (gender : Gender) (v : ℚ) :
    BMI.getBMIDefinition gender v = .areYouHuman ↔ v < 18.5 := by
  rw [← rank_eq_zero_iff, rank_getBMIDefinition]
  unfold band
  rw [List.countP_eq_zero]
  simp only [decide_eq_true_eq, not_le]
  constructor
  · intro h
    exact h 18.5 (first_threshold gender)
  · intro h t ht
    exact h.trans_le (thresholds_ge gender t ht)

theorem getBMIDefinition_mono (gender : Gender) {u v : ℚ} (h : u ≤ v) :
    (BMI.getBMIDefinition gender u).rank ≤ (BMI.getBMIDefinition gender v).rank := by
  rw [rank_getBMIDefinition, rank_getBMIDefinition]
  exact band_mono (thresholds gender) h

theorem bmi_mono {h₁ h₂ w₁ w₂ : ℚ} (hpos : 0 < h₂) (hh : h₂ ≤ h₁) (hnonneg : 0 ≤ w₁)
    (hw : w₁ ≤ w₂) : w₁ / h₁ ^ 2 ≤ w₂ / h₂ ^ 2 := by
  have hsquare : h₂ ^ 2 ≤ h₁ ^ 2 := pow_le_pow_left₀ hpos.le hh 2
  exact div_le_div₀ (hnonneg.trans hw) hw (by positivity) hsquare

theorem getBMI_mono {h₁ h₂ w₁ w₂ : ℚ} (gender : Gender) (hpos : 0 < h₂) (hh : h₂ ≤ h₁)
    (hnonneg : 0 ≤ w₁) (hw : w₁ ≤ w₂) :
    BMICalculator.getBMI ⟨h₁, w₁, gender⟩ ≤ BMICalculator.getBMI ⟨h₂, w₂, gender⟩ := by
  have hbmi := bmi_mono hpos hh hnonneg hw
  have hround : (roundHalfAway (w₁ / h₁ ^ 2 * 10 ^ 1) : ℚ) ≤
      (roundHalfAway (w₂ / h₂ ^ 2 * 10 ^ 1) : ℚ) := by
    exact_mod_cast roundHalfAway_mono (mul_le_mul_of_nonneg_right hbmi (by norm_num))
  exact div_le_div_of_nonneg_right hround (by norm_num)

/-- Who is as short and as heavy or more gets no lower verdict; the default case is left
for a rounded value below 18.5, and no value from 18.5 on falls into it. -/
theorem verdicts_ranked (gender : Gender) (h₁ h₂ w₁ w₂ : ℚ) (hpos : 0 < h₂) (hh : h₂ ≤ h₁)
    (hnonneg : 0 ≤ w₁) (hw : w₁ ≤ w₂) :
    (BMICalculator.getBMICategory ⟨h₁, w₁, gender⟩).rank ≤
        (BMICalculator.getBMICategory ⟨h₂, w₂, gender⟩).rank ∧
      (∀ height weight : ℚ,
        BMICalculator.getBMICategory ⟨height, weight, gender⟩ = .areYouHuman ↔
          (roundHalfAway (weight / height ^ 2 * 10) : ℚ) / 10 < 18.5) ∧
      ∀ v : ℚ, 18.5 ≤ v → BMI.getBMIDefinition gender v ≠ .areYouHuman := by
  have hrank := getBMIDefinition_mono gender (getBMI_mono gender hpos hh hnonneg hw)
  have hdefault : ∀ height weight : ℚ,
      BMICalculator.getBMICategory ⟨height, weight, gender⟩ = .areYouHuman ↔
        (roundHalfAway (weight / height ^ 2 * 10) : ℚ) / 10 < 18.5 := by
    intro height weight
    unfold BMICalculator.getBMICategory
    rw [areYouHuman_iff]
    unfold BMICalculator.getBMI
    dsimp only
    rw [pow_one]
  have hgap : ∀ v : ℚ, 18.5 ≤ v → BMI.getBMIDefinition gender v ≠ .areYouHuman := by
    intro v hv hsame
    exact absurd ((areYouHuman_iff gender v).mp hsame) (not_lt.mpr hv)
  exact ⟨hrank, hdefault, hgap⟩

/- A man of 70 kg and 1.8 m, and one of 80 kg and 1.7 m. -/
theorem seventy_kilos_ranked :
    (BMICalculator.getBMICategory ⟨1.8, 70, .male⟩).rank ≤
        (BMICalculator.getBMICategory ⟨1.7, 80, .male⟩).rank ∧
      (∀ height weight : ℚ,
        BMICalculator.getBMICategory ⟨height, weight, .male⟩ = .areYouHuman ↔
          (roundHalfAway (weight / height ^ 2 * 10) : ℚ) / 10 < 18.5) ∧
      ∀ v : ℚ, 18.5 ≤ v → BMI.getBMIDefinition .male v ≠ .areYouHuman :=
  verdicts_ranked .male 1.8 1.7 70 80 (by norm_num) (by norm_num) (by norm_num) (by norm_num)

end PracticeApps.BMIApp
