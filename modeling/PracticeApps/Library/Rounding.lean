import PracticeApps.Library.DecimalText

/-!
# Two ways to round, and bands between thresholds

Rounding half away from zero and half to even differ only at the ties above an
even integer, and there by one. Both keep the order, and what is printed is at
most half a unit of the last place off. A number falls into the band given by how many
thresholds it has reached; two numbers are in one band unless a threshold
separates them.
-/

namespace PracticeApps.Rounding
open DecimalText

/-- The nearest integer; a tie goes away from zero. -/
def roundHalfAway (x : ℚ) : ℤ := if 0 ≤ x then ⌊x + 1 / 2⌋ else -⌊-x + 1 / 2⌋

/-- Halfway between an even integer and the next one. -/
def EvenTie (x : ℚ) : Prop := ∃ z : ℤ, z % 2 = 0 ∧ x = z + 1 / 2

theorem floor_of_tie {x : ℚ} {z : ℤ} (h : x = z + 1 / 2) : ⌊x⌋ = z := by
  rw [h, Int.floor_eq_iff]
  exact ⟨by linarith, by linarith⟩

theorem roundHalfEven_of_evenTie {x : ℚ} {z : ℤ} (hz : z % 2 = 0) (h : x = z + 1 / 2) :
    roundHalfEven x = z := by
  have hfloor := floor_of_tie h
  have hhalf : x - z = 1 / 2 := by linarith
  unfold roundHalfEven
  dsimp only
  rw [hfloor, hhalf, if_neg (lt_irrefl _), if_neg (lt_irrefl _), if_pos hz]

theorem roundHalfAway_of_tie {x : ℚ} {z : ℤ} (hx : 0 ≤ x) (h : x = z + 1 / 2) :
    roundHalfAway x = z + 1 := by
  have hone : x + 1 / 2 = ((z + 1 : ℤ) : ℚ) := by
    push_cast
    linarith
  unfold roundHalfAway
  rw [if_pos hx, hone, Int.floor_intCast]

/-- Away from the even ties both give the same integer. -/
theorem roundHalfAway_eq_roundHalfEven {x : ℚ} (hx : 0 ≤ x) (h : ¬ EvenTie x) :
    roundHalfAway x = roundHalfEven x := by
  have hle := Int.floor_le x
  have hlt := Int.lt_floor_add_one x
  unfold roundHalfAway roundHalfEven
  rw [if_pos hx]
  dsimp only
  split_ifs with hbelow habove heven
  · rw [Int.floor_eq_iff]
    exact ⟨by linarith, by linarith⟩
  · rw [Int.floor_eq_iff]
    push_cast
    exact ⟨by linarith, by linarith⟩
  · exact absurd ⟨⌊x⌋, heven, by linarith⟩ h
  · rw [Int.floor_eq_iff]
    push_cast
    exact ⟨by linarith, by linarith⟩

/-! ### Order and distance -/

theorem roundHalfEven_bounds (x : ℚ) : ⌊x⌋ ≤ roundHalfEven x ∧ roundHalfEven x ≤ ⌊x⌋ + 1 := by
  unfold roundHalfEven
  dsimp only
  split_ifs <;> omega

theorem roundHalfEven_mono {x y : ℚ} (h : x ≤ y) : roundHalfEven x ≤ roundHalfEven y := by
  have hfloor : ⌊x⌋ ≤ ⌊y⌋ := Int.floor_le_floor h
  have hx := (roundHalfEven_bounds x).2
  have hy := (roundHalfEven_bounds y).1
  by_cases hsame : ⌊x⌋ = ⌊y⌋
  · -- above one integer, rounding up is kept when the number grows
    unfold roundHalfEven
    dsimp only
    rw [hsame]
    split_ifs <;> first | omega | linarith
  · omega

theorem abs_roundHalfEven_sub_le (x : ℚ) : |(roundHalfEven x : ℚ) - x| ≤ 1 / 2 := by
  have hle := Int.floor_le x
  have hlt := Int.lt_floor_add_one x
  rw [abs_le]
  unfold roundHalfEven
  dsimp only
  split_ifs <;> push_cast <;> constructor <;> linarith

theorem roundHalfAway_mono {x y : ℚ} (h : x ≤ y) : roundHalfAway x ≤ roundHalfAway y := by
  unfold roundHalfAway
  by_cases hx : 0 ≤ x
  · rw [if_pos hx, if_pos (hx.trans h)]
    exact Int.floor_le_floor (by linarith)
  · have hneg : 0 ≤ ⌊-x + 1 / 2⌋ := Int.floor_nonneg.mpr (by linarith)
    rw [if_neg hx]
    by_cases hy : 0 ≤ y
    · have hpos : 0 ≤ ⌊y + 1 / 2⌋ := Int.floor_nonneg.mpr (by linarith)
      rw [if_pos hy]
      omega
    · have hfloor : ⌊-y + 1 / 2⌋ ≤ ⌊-x + 1 / 2⌋ := Int.floor_le_floor (by linarith)
      rw [if_neg hy]
      omega

/-! ### The number printed -/

theorem readDecimal_formatFixed_nonneg (k : ℕ) {x : ℚ} (hx : 0 ≤ x) :
    readDecimal (formatFixed k x) = some ((roundHalfEven (x * 10 ^ k) : ℚ) / 10 ^ k) := by
  rw [readDecimal_formatFixed, if_neg (not_lt.mpr hx), abs_of_nonneg hx, one_mul]

/-- What is printed with `k` places is at most half a unit of the last one off. -/
theorem abs_printed_sub_le (k : ℕ) (x : ℚ) :
    |(roundHalfEven (x * 10 ^ k) : ℚ) / 10 ^ k - x| ≤ 1 / 2 / 10 ^ k := by
  have hpos : (0 : ℚ) < 10 ^ k := by positivity
  have hscaled : (roundHalfEven (x * 10 ^ k) : ℚ) / 10 ^ k - x =
      ((roundHalfEven (x * 10 ^ k) : ℚ) - x * 10 ^ k) / 10 ^ k := by
    field_simp
  rw [hscaled, abs_div, abs_of_pos hpos]
  exact div_le_div_of_nonneg_right (abs_roundHalfEven_sub_le _) hpos.le

theorem printed_mono (k : ℕ) {x y : ℚ} (h : x ≤ y) :
    (roundHalfEven (x * 10 ^ k) : ℚ) / 10 ^ k ≤ (roundHalfEven (y * 10 ^ k) : ℚ) / 10 ^ k := by
  have hscaled : x * 10 ^ k ≤ y * 10 ^ k := mul_le_mul_of_nonneg_right h (by positivity)
  have hround : (roundHalfEven (x * 10 ^ k) : ℚ) ≤ (roundHalfEven (y * 10 ^ k) : ℚ) := by
    exact_mod_cast roundHalfEven_mono hscaled
  exact div_le_div_of_nonneg_right hround (by positivity)

/-! ### Bands -/

/-- How many of the thresholds a number has reached. -/
def band (thresholds : List ℚ) (v : ℚ) : ℕ := thresholds.countP fun t => t ≤ v

theorem band_cons (t : ℚ) (thresholds : List ℚ) (v : ℚ) :
    band (t :: thresholds) v = band thresholds v + if t ≤ v then 1 else 0 := by
  unfold band
  rw [List.countP_cons]
  simp only [decide_eq_true_eq]

theorem band_mono (thresholds : List ℚ) {u v : ℚ} (h : u ≤ v) :
    band thresholds u ≤ band thresholds v := by
  unfold band
  apply List.countP_mono_left
  intro t _ ht
  rw [decide_eq_true_eq] at ht ⊢
  exact ht.trans h

theorem band_eq_iff (thresholds : List ℚ) {u v : ℚ} (h : u ≤ v) :
    band thresholds u = band thresholds v ↔ ∀ t ∈ thresholds, t ≤ v → t ≤ u := by
  induction thresholds with
  | nil => simp [band]
  | cons t thresholds ih =>
    have hmono := band_mono thresholds h
    rw [List.forall_mem_cons, ← ih, band_cons, band_cons]
    by_cases hv : t ≤ v
    · by_cases hu : t ≤ u
      · simp [hu, hv]
      · rw [if_neg hu, if_pos hv]
        refine iff_of_false (by omega) ?_
        intro hboth
        exact hu (hboth.1 hv)
    · have hu : ¬ t ≤ u := fun hu => hv (hu.trans h)
      simp [hu, hv]

end PracticeApps.Rounding
