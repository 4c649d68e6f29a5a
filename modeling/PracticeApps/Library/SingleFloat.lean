import Mathlib.Data.Int.Log
import Mathlib.Tactic.FieldSimp
import Mathlib.Tactic.Ring
import PracticeApps.Library.Rounding

/-!
# Floats of 32 bits

The finite values are the integers of at most 24 bits, scaled by a power of two not below
-149. An operation gives the value nearest to the exact result, of two equally near ones
the even one. There is no upper bound on the exponent: what is computed here stays far
below the largest finite value.
-/

namespace PracticeApps
open DecimalText Rounding

namespace SingleFloat

def Representable (q : ℚ) : Prop :=
  ∃ (m : ℤ) (e : ℤ), |m| < 2 ^ 24 ∧ -149 ≤ e ∧ q = m * 2 ^ e

/-- The exponent of the last place of a number. -/
def lastPlace (q : ℚ) : ℤ := max (Int.log 2 |q| - 23) (-149)

def nearest (q : ℚ) : ℚ := roundHalfEven (q / 2 ^ lastPlace q) * 2 ^ lastPlace q

/-! ### The nearest value -/

theorem roundHalfEven_nearest (x : ℚ) (z : ℤ) : |(roundHalfEven x : ℚ) - x| ≤ |(z : ℚ) - x| := by
  have herror := abs_roundHalfEven_sub_le x
  by_cases hsame : roundHalfEven x = z
  · rw [hsame]
  · have hone : (1 : ℤ) ≤ |roundHalfEven x - z| := by
      have hpos := abs_pos.mpr (sub_ne_zero.mpr hsame)
      omega
    have hapart : (1 : ℚ) ≤ |(roundHalfEven x : ℚ) - z| := by exact_mod_cast hone
    have htriangle := abs_add_le ((roundHalfEven x : ℚ) - x) (x - z)
    rw [sub_add_sub_cancel, abs_sub_comm x] at htriangle
    linarith

/- Among the multiples of the last place. -/
theorem nearest_le_multiple (q : ℚ) (z : ℤ) :
    |nearest q - q| ≤ |(z : ℚ) * 2 ^ lastPlace q - q| := by
  have hpos : (0 : ℚ) < 2 ^ lastPlace q := zpow_pos (by norm_num) _
  have hscaled : ∀ n : ℤ, |(n : ℚ) * 2 ^ lastPlace q - q| =
      |(n : ℚ) - q / 2 ^ lastPlace q| * 2 ^ lastPlace q := by
    intro n
    rw [← abs_of_pos hpos, ← abs_mul, abs_of_pos hpos]
    congr 1
    field_simp
  unfold nearest
  rw [hscaled, hscaled]
  exact mul_le_mul_of_nonneg_right (roundHalfEven_nearest _ z) hpos.le

theorem zpow_split {e k : ℤ} (h : e ≤ k) : (2 : ℚ) ^ k = ((2 ^ (k - e).toNat : ℤ) : ℚ) * 2 ^ e := by
  have hcast : (((k - e).toNat : ℕ) : ℤ) = k - e := Int.toNat_of_nonneg (by omega)
  push_cast
  rw [← zpow_natCast, hcast, ← zpow_add₀ (by norm_num)]
  congr 1
  omega

/- A value of a smaller exponent is in front of the least number with this last place. -/
theorem abs_lt_of_exponent {q x : ℚ} {m e : ℤ} (hm : |m| < 2 ^ 24) (hx : x = m * 2 ^ e)
    (he : e < lastPlace q) : |x| ≤ 2 ^ (lastPlace q + 23) := by
  have hbits : |(m : ℚ)| ≤ 2 ^ (24 : ℤ) := by exact_mod_cast hm.le
  have hpos : (0 : ℚ) < 2 ^ e := zpow_pos (by norm_num) _
  calc |x| = |(m : ℚ)| * 2 ^ e := by rw [hx, abs_mul, abs_of_pos hpos]
    _ ≤ 2 ^ (24 : ℤ) * 2 ^ e := mul_le_mul_of_nonneg_right hbits hpos.le
    _ = 2 ^ (24 + e) := (zpow_add₀ (by norm_num) 24 e).symm
    _ ≤ 2 ^ (lastPlace q + 23) := zpow_le_zpow_right₀ (by norm_num) (by omega)

theorem nearest_zero : nearest 0 = 0 := by
  have hround : roundHalfEven (0 : ℚ) = 0 := roundHalfEven_intCast 0
  unfold nearest
  rw [zero_div, hround, Int.cast_zero, zero_mul]

theorem nearest_le {x : ℚ} (hx : Representable x) (q : ℚ) : |nearest q - q| ≤ |x - q| := by
  obtain ⟨m, e, hm, hlow, hx⟩ := hx
  by_cases hzero : q = 0
  · rw [hzero, nearest_zero, sub_zero, abs_zero]
    exact abs_nonneg _
  by_cases he : lastPlace q ≤ e
  · have hmultiple : x = ((m * 2 ^ (e - lastPlace q).toNat : ℤ) : ℚ) * 2 ^ lastPlace q := by
      rw [hx, zpow_split he, Int.cast_mul, mul_assoc]
    rw [hmultiple]
    exact nearest_le_multiple q _
  · -- `x` is closer to 0 than the power of two below `q`, which is a multiple.
    have hpower : (2 : ℚ) ^ (lastPlace q + 23) ≤ |q| := by
      have hplace : lastPlace q = Int.log 2 |q| - 23 := by
        have hmax : lastPlace q = max (Int.log 2 |q| - 23) (-149) := rfl
        omega
      have hlog := Int.zpow_log_le_self (R := ℚ) (b := 2) (by norm_num) (abs_pos.mpr hzero)
      rw [hplace, sub_add_cancel]
      exact_mod_cast hlog
    have hxle := abs_lt_of_exponent hm hx (not_le.mp he)
    have hfar : |q| - 2 ^ (lastPlace q + 23) ≤ |x - q| := by
      have htriangle := abs_sub_abs_le_abs_sub q x
      rw [abs_sub_comm] at htriangle
      linarith
    have hsplit := zpow_split (e := lastPlace q) (k := lastPlace q + 23) (by omega)
    refine le_trans ?_ hfar
    rcases le_total 0 q with hpos | hneg
    · rw [abs_of_nonneg hpos] at hpower ⊢
      have hnear := nearest_le_multiple q (2 ^ (lastPlace q + 23 - lastPlace q).toNat)
      have hedge : |2 ^ (lastPlace q + 23) - q| = q - 2 ^ (lastPlace q + 23) := by
        rw [abs_sub_comm, abs_of_nonneg (sub_nonneg.mpr hpower)]
      rw [← hsplit, hedge] at hnear
      exact hnear
    · rw [abs_of_nonpos hneg] at hpower ⊢
      have hnear := nearest_le_multiple q (-2 ^ (lastPlace q + 23 - lastPlace q).toNat)
      have hedge : |-2 ^ (lastPlace q + 23) - q| = -q - 2 ^ (lastPlace q + 23) := by
        rw [abs_of_nonneg (by linarith)]
        ring
      rw [Int.cast_neg, neg_mul, ← hsplit, hedge] at hnear
      exact hnear

theorem representable_nearest (q : ℚ) : Representable (nearest q) := by
  have hpos : (0 : ℚ) < 2 ^ lastPlace q := zpow_pos (by norm_num) _
  have hmax : lastPlace q = max (Int.log 2 |q| - 23) (-149) := rfl
  have hlow : -149 ≤ lastPlace q := by omega
  -- At most 24 bits are left of `q`.
  have hbound : |q / 2 ^ lastPlace q| ≤ ((2 ^ 24 : ℤ) : ℚ) := by
    have hlog := Int.lt_zpow_succ_log_self (R := ℚ) (b := 2) (by norm_num) |q|
    have hle : |q| ≤ 2 ^ ((24 : ℤ) + lastPlace q) := by
      refine le_trans ?_ (zpow_le_zpow_right₀ (by norm_num)
        (by omega : Int.log 2 |q| + 1 ≤ 24 + lastPlace q))
      exact_mod_cast hlog.le
    rw [zpow_add₀ (by norm_num)] at hle
    rw [abs_div, abs_of_pos hpos, div_le_iff₀ hpos]
    exact_mod_cast hle
  have hup : roundHalfEven (q / 2 ^ lastPlace q) ≤ 2 ^ 24 := by
    have hround := roundHalfEven_mono (abs_le.mp hbound).2
    rwa [roundHalfEven_intCast] at hround
  have hdown : -2 ^ 24 ≤ roundHalfEven (q / 2 ^ lastPlace q) := by
    have hround := roundHalfEven_mono (abs_le.mp hbound).1
    rwa [← Int.cast_neg, roundHalfEven_intCast] at hround
  unfold nearest
  by_cases hsmall : |roundHalfEven (q / 2 ^ lastPlace q)| < 2 ^ 24
  · exact ⟨_, _, hsmall, hlow, rfl⟩
  · -- One bit more is a power of two.
    have hstep : (2 : ℚ) ^ (lastPlace q + 1) = 2 * 2 ^ lastPlace q := by
      rw [zpow_add₀ (by norm_num), zpow_one, mul_comm]
    rcases abs_cases (roundHalfEven (q / 2 ^ lastPlace q)) with ⟨habs, -⟩ | ⟨habs, -⟩
    · have hend : roundHalfEven (q / 2 ^ lastPlace q) = 2 ^ 24 := by omega
      refine ⟨2 ^ 23, lastPlace q + 1, by norm_num, by omega, ?_⟩
      rw [hend, hstep]
      push_cast
      ring
    · have hend : roundHalfEven (q / 2 ^ lastPlace q) = -2 ^ 24 := by omega
      refine ⟨-2 ^ 23, lastPlace q + 1, by norm_num, by omega, ?_⟩
      rw [hend, hstep]
      push_cast
      ring

theorem nearest_eq {x : ℚ} (hx : Representable x) : nearest x = x := by
  have hnear := nearest_le hx x
  rw [sub_self, abs_zero] at hnear
  exact sub_eq_zero.mp (abs_eq_zero.mp (le_antisymm hnear (abs_nonneg _)))

theorem nearest_mono {p q : ℚ} (h : p ≤ q) : nearest p ≤ nearest q := by
  by_contra hnot
  have hless := not_le.mp hnot
  have hp := nearest_le (representable_nearest q) p
  have hq := nearest_le (representable_nearest p) q
  -- The middle of the two values is at most `p` and at least `q`.
  have hlow : nearest p + nearest q ≤ 2 * p := by
    rcases abs_cases (nearest p - p) with ⟨h1, h2⟩ | ⟨h1, h2⟩ <;>
      rcases abs_cases (nearest q - p) with ⟨h3, h4⟩ | ⟨h3, h4⟩ <;> linarith
  have hhigh : 2 * q ≤ nearest p + nearest q := by
    rcases abs_cases (nearest p - q) with ⟨h1, h2⟩ | ⟨h1, h2⟩ <;>
      rcases abs_cases (nearest q - q) with ⟨h3, h4⟩ | ⟨h3, h4⟩ <;> linarith
  have hsame : p = q := by linarith
  rw [hsame] at hless
  exact lt_irrefl _ hless

theorem representable_intCast {n : ℤ} (h : |n| ≤ 2 ^ 24) : Representable n := by
  by_cases hsmall : |n| < 2 ^ 24
  · exact ⟨n, 0, hsmall, by norm_num, by rw [zpow_zero, mul_one]⟩
  · rcases abs_cases n with ⟨habs, -⟩ | ⟨habs, -⟩
    · have hn : n = 2 ^ 24 := by omega
      exact ⟨1, 24, by norm_num, by norm_num, by rw [hn]; norm_num⟩
    · have hn : n = -2 ^ 24 := by omega
      exact ⟨-1, 24, by norm_num, by norm_num, by rw [hn]; norm_num⟩

end SingleFloat

/-! ### The values and their operations -/

/-- A finite float. -/
@[ext] structure SingleFloat where
  value : ℚ
  representable : SingleFloat.Representable value
  deriving DecidableEq

namespace SingleFloat

/- `Float(n)` -/
def ofInt (n : ℤ) : SingleFloat := ⟨nearest n, representable_nearest n⟩

/- The divisor is not zero. -/
def div (a b : SingleFloat) : SingleFloat :=
  ⟨nearest (a.value / b.value), representable_nearest _⟩

/- `Float(k) / Float(n)` -/
def quotient (k n : ℤ) : SingleFloat := div (ofInt k) (ofInt n)

theorem quotient_value (k n : ℤ) :
    (quotient k n).value = nearest ((ofInt k).value / (ofInt n).value) := rfl

theorem ofInt_value {n : ℤ} (h : |n| ≤ 2 ^ 24) : (ofInt n).value = n :=
  nearest_eq (representable_intCast h)

theorem ofInt_mono {m n : ℤ} (h : m ≤ n) : (ofInt m).value ≤ (ofInt n).value :=
  nearest_mono (by exact_mod_cast h)

theorem ofInt_pos {n : ℤ} (h : 0 < n) : 0 < (ofInt n).value := by
  have hone : (ofInt 1).value = 1 := by
    rw [ofInt_value (by norm_num), Int.cast_one]
  have hle := ofInt_mono (m := 1) (n := n) (by omega)
  rw [hone] at hle
  linarith

theorem zero_value : (ofInt 0).value = 0 := by
  rw [ofInt_value (by norm_num), Int.cast_zero]

theorem quotient_zero (n : ℤ) : quotient 0 n = ofInt 0 := by
  ext
  rw [quotient_value, zero_value, zero_div, nearest_zero]

theorem quotient_self {n : ℤ} (h : 0 < n) : (quotient n n).value = 1 := by
  have hone := nearest_eq (representable_intCast (n := 1) (by norm_num))
  rw [quotient_value, div_self (ofInt_pos h).ne', ← Int.cast_one, hone]

theorem quotient_mono {j k n : ℤ} (hn : 0 < n) (h : j ≤ k) :
    (quotient j n).value ≤ (quotient k n).value :=
  nearest_mono (div_le_div_of_nonneg_right (ofInt_mono h) (ofInt_pos hn).le)

theorem quotient_unit {k n : ℤ} (hn : 0 < n) (hk : 0 ≤ k) (hkn : k ≤ n) :
    0 ≤ (quotient k n).value ∧ (quotient k n).value ≤ 1 := by
  have hlow := quotient_mono hn hk
  have hhigh := quotient_mono hn hkn
  rw [quotient_zero, zero_value] at hlow
  rw [quotient_self hn] at hhigh
  exact ⟨hlow, hhigh⟩

/-- Up to 24 bits the quotient is the float nearest to the exact one. -/
theorem quotient_nearest {k n : ℤ} (hk : |k| ≤ 2 ^ 24) (hn : |n| ≤ 2 ^ 24) (x : SingleFloat) :
    |(quotient k n).value - (k : ℚ) / n| ≤ |x.value - (k : ℚ) / n| := by
  rw [quotient_value, ofInt_value hk, ofInt_value hn]
  exact nearest_le x.representable _

end SingleFloat

end PracticeApps
