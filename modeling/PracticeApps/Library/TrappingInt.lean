import Mathlib.Algebra.Order.Ring.Int

/-!
# Signed integers that trap

Arithmetic on signed integers of a fixed width. An operation gives the number
whose value is the exact result, and traps when the type has none; division
truncates towards zero. Nothing wraps around.
-/

namespace PracticeApps.TrappingInt

inductive ArithmeticTrap where
  | overflow
  | divisionByZero
  deriving DecidableEq, Repr

/-- The number of width `w` with a given exact value. -/
def ofExact (w : ℕ) (z : ℤ) : Except ArithmeticTrap (BitVec w) :=
  if (BitVec.ofInt w z).toInt = z then .ok (BitVec.ofInt w z) else .error .overflow

variable {w : ℕ}

def sub (x y : BitVec w) : Except ArithmeticTrap (BitVec w) := ofExact w (x.toInt - y.toInt)

def mul (x y : BitVec w) : Except ArithmeticTrap (BitVec w) := ofExact w (x.toInt * y.toInt)

def div (x y : BitVec w) : Except ArithmeticTrap (BitVec w) :=
  if y = 0 then .error .divisionByZero else ofExact w (x.toInt.tdiv y.toInt)

theorem ofExact_eq_ok_iff {z : ℤ} {x : BitVec w} : ofExact w z = .ok x ↔ x.toInt = z := by
  unfold ofExact
  constructor
  · intro h
    split at h
    next hz =>
      cases h
      exact hz
    · cases h
  · intro h
    rw [← h, BitVec.ofInt_toInt, if_pos rfl]

theorem ofExact_fits (hw : 0 < w) {z : ℤ} (hlow : -2 ^ (w - 1) ≤ z) (hhigh : z < 2 ^ (w - 1)) :
    ∃ x, ofExact w z = .ok x ∧ x.toInt = z := by
  have hvalue := BitVec.toInt_ofInt_eq_self hw hlow hhigh
  exact ⟨_, ofExact_eq_ok_iff.mpr hvalue, hvalue⟩

theorem ofExact_overflow {z : ℤ} (h : z < -2 ^ (w - 1) ∨ 2 ^ (w - 1) ≤ z) :
    ofExact w z = .error .overflow := by
  unfold ofExact
  rw [if_neg]
  intro hvalue
  have hlow := BitVec.le_toInt (BitVec.ofInt w z)
  have hhigh := BitVec.toInt_lt (x := BitVec.ofInt w z)
  omega

theorem div_zero (x : BitVec w) : div x 0 = .error .divisionByZero := by
  unfold div
  rw [if_pos rfl]

/- Only the quotient of the least number and -1 does not fit. -/
theorem div_ok {x y : BitVec w} (hy : y ≠ 0) (h : x ≠ BitVec.intMin w ∨ y ≠ -1) :
    ∃ q, div x y = .ok q ∧ q.toInt = x.toInt.tdiv y.toInt := by
  have hvalue := BitVec.toInt_sdiv_of_ne_or_ne x y h
  refine ⟨x.sdiv y, ?_, hvalue⟩
  unfold div
  rw [if_neg hy]
  exact ofExact_eq_ok_iff.mpr hvalue

theorem div_ok_of_nonneg (hw : 0 < w) {x y : BitVec w} (hx : 0 ≤ x.toInt) (hy : y ≠ 0) :
    ∃ q, div x y = .ok q ∧ q.toInt = x.toInt.tdiv y.toInt := by
  apply div_ok hy
  left
  intro hmin
  have hpow : (0 : ℤ) < 2 ^ (w - 1) := Int.pow_pos (by decide)
  rw [hmin, BitVec.toInt_intMin_of_pos hw] at hx
  omega

/-! ### Sequences of operations -/

theorem bind_of_ok {α β : Type} {x : Except ArithmeticTrap α} {a : α} (h : x = .ok a)
    (f : α → Except ArithmeticTrap β) : (x >>= f) = f a := by
  rw [h]
  rfl

theorem bind_of_error {α β : Type} {x : Except ArithmeticTrap α} {t : ArithmeticTrap}
    (h : x = .error t) (f : α → Except ArithmeticTrap β) : (x >>= f) = .error t := by
  rw [h]
  rfl

end PracticeApps.TrappingInt
