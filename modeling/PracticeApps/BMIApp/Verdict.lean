import PracticeApps.BMIApp.BMICalculator

/-!
# The number shown and the verdict

The label and the verdict round the same quotient in two ways. The two roundings
differ at ties above an even last digit, and then by one unit of it, so the
verdict belongs to another number than the one shown if a threshold is the
upper of the two.
-/

namespace PracticeApps.BMIApp
open DecimalText Rounding

/-! ### The ranges as bands -/

/- The lower ends of the ranges, in tenths. -/
def tenths : Gender → List ℤ
  | .male => [185, 207, 264, 278, 311]
  | .female => [185, 191, 258, 273, 323]

def thresholds (gender : Gender) : List ℚ := (tenths gender).map fun t : ℤ => (t : ℚ) / 10

def ofBand : ℕ → BMI
  | 0 => .areYouHuman
  | 1 => .underweight
  | 2 => .normal
  | 3 => .marginallyOverweight
  | 4 => .overweight
  | _ => .obese

theorem ofBand_inj : ∀ m < 6, ∀ n < 6, (ofBand m = ofBand n ↔ m = n) := by decide

theorem ranged_eq {a b c d e : ℚ} (hab : a < b) (hbc : b < c) (hcd : c < d) (hde : d < e) (v : ℚ) :
    BMI.ranged a b c d e v = ofBand (band [a, b, c, d, e] v) := by
  have hreached : ∀ {s t : ℚ}, s < t → t ≤ v → s ≤ v := fun hst htv => hst.le.trans htv
  unfold BMI.ranged band
  simp only [← not_le]
  by_cases ha : a ≤ v
  · by_cases hb : b ≤ v
    · by_cases hc : c ≤ v
      · by_cases hd : d ≤ v
        · by_cases he : e ≤ v <;> simp [ha, hb, hc, hd, he, ofBand, -not_le]
        · have he : ¬ e ≤ v := fun he => hd (hreached hde he)
          simp [ha, hb, hc, hd, he, ofBand, -not_le]
      · have hd : ¬ d ≤ v := fun hd => hc (hreached hcd hd)
        have he : ¬ e ≤ v := fun he => hd (hreached hde he)
        simp [ha, hb, hc, hd, he, ofBand, -not_le]
    · have hc : ¬ c ≤ v := fun hc => hb (hreached hbc hc)
      have hd : ¬ d ≤ v := fun hd => hc (hreached hcd hd)
      have he : ¬ e ≤ v := fun he => hd (hreached hde he)
      simp [ha, hb, hc, hd, he, ofBand, -not_le]
  · have hb : ¬ b ≤ v := fun hb => ha (hreached hab hb)
    have hc : ¬ c ≤ v := fun hc => hb (hreached hbc hc)
    have hd : ¬ d ≤ v := fun hd => hc (hreached hcd hd)
    have he : ¬ e ≤ v := fun he => hd (hreached hde he)
    simp [ha, hb, hc, hd, he, ofBand, -not_le]

theorem getBMIDefinition_eq (gender : Gender) (v : ℚ) :
    BMI.getBMIDefinition gender v = ofBand (band (thresholds gender) v) := by
  cases gender with
  | male =>
    have h := ranged_eq (a := 18.5) (b := 20.7) (c := 26.4) (d := 27.8) (e := 31.1)
      (by norm_num) (by norm_num) (by norm_num) (by norm_num) v
    have hlist : ([18.5, 20.7, 26.4, 27.8, 31.1] : List ℚ) = thresholds .male := by
      norm_num [thresholds, tenths]
    rw [hlist] at h
    exact h
  | female =>
    have h := ranged_eq (a := 18.5) (b := 19.1) (c := 25.8) (d := 27.3) (e := 32.3)
      (by norm_num) (by norm_num) (by norm_num) (by norm_num) v
    have hlist : ([18.5, 19.1, 25.8, 27.3, 32.3] : List ℚ) = thresholds .female := by
      norm_num [thresholds, tenths]
    rw [hlist] at h
    exact h

theorem band_thresholds_lt (gender : Gender) (v : ℚ) : band (thresholds gender) v < 6 := by
  have h := List.countP_le_length (p := fun t => decide (t ≤ v)) (l := thresholds gender)
  cases gender <;> exact Nat.lt_succ_of_le h

/- Two numbers get one definition unless a threshold separates them. -/
theorem getBMIDefinition_eq_iff (gender : Gender) {u v : ℚ} (h : u ≤ v) :
    BMI.getBMIDefinition gender u = BMI.getBMIDefinition gender v ↔
      ∀ t ∈ thresholds gender, t ≤ v → t ≤ u := by
  rw [getBMIDefinition_eq, getBMIDefinition_eq,
    ofBand_inj _ (band_thresholds_lt gender u) _ (band_thresholds_lt gender v), band_eq_iff _ h]

/-! ### The two roundings -/

/- The exact value lies half a tenth below a threshold whose last digit is odd. -/
def JustBelowOdd (gender : Gender) (bmi : ℚ) : Prop :=
  ∃ t ∈ tenths gender, t % 2 = 1 ∧ bmi = (t : ℚ) / 10 - 1 / 20

/- The next tenth above an integer number of tenths is a threshold or not. -/
theorem next_tenth_iff (gender : Gender) (z : ℤ) :
    BMI.getBMIDefinition gender ((z : ℚ) / 10) =
        BMI.getBMIDefinition gender (((z + 1 : ℤ) : ℚ) / 10) ↔ z + 1 ∉ tenths gender := by
  have hle : (z : ℚ) / 10 ≤ ((z + 1 : ℤ) : ℚ) / 10 := by
    push_cast
    linarith
  have htenth : ∀ s t : ℤ, (s : ℚ) / 10 ≤ (t : ℚ) / 10 ↔ s ≤ t := by
    intro s t
    rw [div_le_div_iff_of_pos_right (by norm_num), Int.cast_le]
  rw [getBMIDefinition_eq_iff gender hle]
  unfold thresholds
  rw [List.forall_mem_map]
  simp only [htenth]
  constructor
  · intro h hmem
    have := h (z + 1) hmem (le_refl _)
    omega
  · intro h t ht htz
    by_contra hzt
    have heq : t = z + 1 := by omega
    rw [heq] at ht
    exact h ht

theorem justBelowOdd_of_evenTie (gender : Gender) {bmi : ℚ} {z : ℤ} (hz : z % 2 = 0)
    (h : bmi * 10 = z + 1 / 2) : JustBelowOdd gender bmi ↔ z + 1 ∈ tenths gender := by
  constructor
  · intro hbelow
    obtain ⟨t, ht, _, hbmi⟩ := hbelow
    have hq : ((t : ℤ) : ℚ) = ((z + 1 : ℤ) : ℚ) := by
      push_cast
      rw [hbmi] at h
      linarith
    have heq : t = z + 1 := by exact_mod_cast hq
    rw [heq] at ht
    exact ht
  · intro hmem
    refine ⟨z + 1, hmem, by omega, ?_⟩
    push_cast
    linarith

theorem evenTie_of_justBelowOdd {gender : Gender} {bmi : ℚ} (h : JustBelowOdd gender bmi) :
    EvenTie (bmi * 10) := by
  obtain ⟨t, _, hodd, hbmi⟩ := h
  refine ⟨t - 1, by omega, ?_⟩
  rw [hbmi]
  push_cast
  ring

/- The number printed. -/
theorem readDecimal_getBMIString (c : BMICalculator) (hbmi : 0 ≤ c.weight / c.height ^ 2) :
    readDecimal c.getBMIString =
      some ((roundHalfEven (c.weight / c.height ^ 2 * 10) : ℚ) / 10) := by
  have hprinted := readDecimal_formatFixed_nonneg 1 hbmi
  rw [pow_one] at hprinted
  exact hprinted

theorem category_matches_iff (c : BMICalculator) (hweight : 0 ≤ c.weight) (hheight : 0 < c.height) :
    (∃ shown, readDecimal c.getBMIString = some shown ∧
        c.getBMICategory = BMI.getBMIDefinition c.gender shown) ↔
      ¬ JustBelowOdd c.gender (c.weight / c.height ^ 2) := by
  have hbmi : 0 ≤ c.weight / c.height ^ 2 := div_nonneg hweight (by positivity)
  have hscaled : 0 ≤ c.weight / c.height ^ 2 * 10 := by positivity
  have hcategory : c.getBMICategory = BMI.getBMIDefinition c.gender
      ((roundHalfAway (c.weight / c.height ^ 2 * 10) : ℚ) / 10) := by
    unfold BMICalculator.getBMICategory BMICalculator.getBMI
    dsimp only
    rw [pow_one]
  have hmatch : (∃ shown, readDecimal c.getBMIString = some shown ∧
      c.getBMICategory = BMI.getBMIDefinition c.gender shown) ↔
      BMI.getBMIDefinition c.gender ((roundHalfEven (c.weight / c.height ^ 2 * 10) : ℚ) / 10) =
        BMI.getBMIDefinition c.gender
          ((roundHalfAway (c.weight / c.height ^ 2 * 10) : ℚ) / 10) := by
    rw [readDecimal_getBMIString c hbmi, hcategory]
    simp only [Option.some.injEq, exists_eq_left']
    exact eq_comm
  rw [hmatch]
  by_cases htie : EvenTie (c.weight / c.height ^ 2 * 10)
  · obtain ⟨z, hz, hx⟩ := htie
    rw [roundHalfEven_of_evenTie hz hx, roundHalfAway_of_tie hscaled hx, next_tenth_iff,
      justBelowOdd_of_evenTie c.gender hz hx]
  · rw [roundHalfAway_eq_roundHalfEven hscaled htie]
    exact iff_of_true rfl fun h => htie (evenTie_of_justBelowOdd h)

theorem bmiSuggestion_inj (b b' : BMI) : b.bmiSuggestion = b'.bmiSuggestion ↔ b = b' := by
  cases b <;> cases b' <;> decide

/-- The verdict is the definition of the number shown, and the result screen suggests what
suits that number, exactly when the exact value is not half a tenth below a threshold of
the gender with an odd last digit. -/
theorem verdict_matches_iff (height weight : ℚ) (gender : Gender) (hweight : 0 ≤ weight)
    (hheight : 0 < height) :
    ((∃ shown, readDecimal (BMICalculator.getBMIString ⟨height, weight, gender⟩) = some shown ∧
        BMICalculator.getBMICategory ⟨height, weight, gender⟩ =
          BMI.getBMIDefinition gender shown) ↔
      ¬ JustBelowOdd gender (weight / height ^ 2)) ∧
    ∀ segment, selectedGender segment = gender →
      ((∃ shown, readDecimal (calculateButtonPressed height weight segment).bmiLabel = some shown ∧
          (calculateButtonPressed height weight segment).suggestionLabel =
            (BMI.getBMIDefinition gender shown).bmiSuggestion) ↔
        ¬ JustBelowOdd gender (weight / height ^ 2)) := by
  have hcategory := category_matches_iff ⟨height, weight, gender⟩ hweight hheight
  refine ⟨hcategory, ?_⟩
  intro segment hsegment
  rw [← hcategory]
  unfold calculateButtonPressed
  rw [hsegment]
  refine exists_congr (fun shown => and_congr_right (fun _ => ?_))
  exact bmiSuggestion_inj _ _

/- A woman of 60 kg and 1.6 m: 23.4375. -/
theorem sixty_kilos_match :
    ((∃ shown, readDecimal (BMICalculator.getBMIString ⟨1.6, 60, .female⟩) = some shown ∧
        BMICalculator.getBMICategory ⟨1.6, 60, .female⟩ = BMI.getBMIDefinition .female shown) ↔
      ¬ JustBelowOdd .female (60 / 1.6 ^ 2)) ∧
    ∀ segment, selectedGender segment = .female →
      ((∃ shown, readDecimal (calculateButtonPressed 1.6 60 segment).bmiLabel = some shown ∧
          (calculateButtonPressed 1.6 60 segment).suggestionLabel =
            (BMI.getBMIDefinition .female shown).bmiSuggestion) ↔
        ¬ JustBelowOdd .female (60 / 1.6 ^ 2)) :=
  verdict_matches_iff 1.6 60 .female (by norm_num) (by norm_num)

/- A woman of 109 kg and 2 m: 27.25 is shown as 27.2 and judged as 27.3. -/
theorem hundred_nine_kilos_shown :
    BMICalculator.getBMIString ⟨2, 109, .female⟩ = ['2', '7', '.', '2'] ∧
      readDecimal ['2', '7', '.', '2'] = some 27.2 ∧
      BMI.getBMIDefinition .female 27.2 = .marginallyOverweight ∧
      BMICalculator.getBMICategory ⟨2, 109, .female⟩ = .overweight := by
  decide +kernel

end PracticeApps.BMIApp
