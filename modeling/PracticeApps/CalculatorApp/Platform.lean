import PracticeApps.Library.DecimalText

/-!
# `Double` as the calculator uses it

The calculator stores its number as the text of a label and reads it back with
`Double(String)`. The arithmetic and the two directions between numbers and
text are a parameter, `DoublePlatform`; `clean` is the code's own printer
(DoubleExtension.swift). `Exact` says that the numbers are exact rationals.
-/

namespace PracticeApps.CalculatorApp
open DecimalText

/-- The operations on `Double` that the code calls. -/
structure DoublePlatform (D : Type) where
  intLiteral : ℤ → D
  add : D → D → D
  sub : D → D → D
  mul : D → D → D
  div : D → D → D
  truncatingRemainder : D → D → D
  floor : D → D
  beq : D → D → Bool
  /-- `Double(String)` -/
  ofText : Text → Option D
  /-- `String(format: "%.0f", x)` -/
  formatWhole : D → Text
  /-- `String(x)` -/
  description : D → Text

variable {D : Type}

/-- `Double.clean` (DoubleExtension.swift:11). -/
def DoublePlatform.clean (P : DoublePlatform D) (x : D) : Text :=
  if P.beq (P.truncatingRemainder x (P.intLiteral 1)) (P.intLiteral 0) then P.formatWhole x
  else P.description x

/-- A text of digits and points only, as the number keys produce. -/
def Typed (t : Text) : Prop := ∀ c ∈ t, c.isDigit = true ∨ c = '.'

/-- What is documented of `Double(String)`: it accepts decimal numerals and the
texts `clean` prints, and of the typed texts it rejects those without a digit
and those with two points. -/
structure DoublePlatform.ReadsNumerals (P : DoublePlatform D) : Prop where
  numeral : ∀ d : Decimal, (P.ofText d.text).isSome
  clean : ∀ x, (P.ofText (P.clean x)).isSome
  noDigit : ∀ t, Typed t → (∀ c ∈ t, c.isDigit = false) → P.ofText t = none
  twoPoints : ∀ t, Typed t → 2 ≤ t.count '.' → P.ofText t = none

theorem DoublePlatform.ReadsNumerals.typed {P : DoublePlatform D} (hP : P.ReadsNumerals)
    {t : Text} (ht : Typed t) :
    (P.ofText t).isSome ↔ (∃ c ∈ t, c.isDigit = true) ∧ t.count '.' ≤ 1 := by
  constructor
  · intro h
    constructor
    · by_contra hno
      push Not at hno
      rw [hP.noDigit t ht (fun c hc => by simpa using hno c hc)] at h
      cases h
    · by_contra hdots
      rw [hP.twoPoints t ht (by omega)] at h
      cases h
  · rintro ⟨hdigit, hdots⟩
    obtain ⟨d, rfl⟩ := exists_decimal ht hdigit hdots
    exact hP.numeral d

/-- The numbers are exact rationals and `Double(String)` gives a numeral its value. -/
structure DoublePlatform.Exact (P : DoublePlatform ℚ) : Prop where
  intLiteral : ∀ z, P.intLiteral z = z
  add : ∀ x y, P.add x y = x + y
  sub : ∀ x y, P.sub x y = x - y
  mul : ∀ x y, P.mul x y = x * y
  div : ∀ x y, P.div x y = x / y
  floor : ∀ x, P.floor x = ⌊x⌋
  beq : ∀ x y, P.beq x y = decide (x = y)
  numeral : ∀ d : Decimal, P.ofText d.text = some d.value

/-- The decimal reader, `%.0f` for whole numbers and fifteen places for the others. -/
def decimalPlatform : DoublePlatform ℚ where
  intLiteral z := z
  add x y := x + y
  sub x y := x - y
  mul x y := x * y
  div x y := x / y
  truncatingRemainder x y := x - y * (if 0 ≤ x / y then (⌊x / y⌋ : ℚ) else (⌈x / y⌉ : ℚ))
  floor x := (⌊x⌋ : ℚ)
  beq x y := decide (x = y)
  ofText := readDecimal
  formatWhole := formatFixed 0
  description := formatFixed 15

theorem decimalPlatform_exact : decimalPlatform.Exact where
  intLiteral _ := rfl
  add _ _ := rfl
  sub _ _ := rfl
  mul _ _ := rfl
  div _ _ := rfl
  floor _ := rfl
  beq _ _ := rfl
  numeral := readDecimal_text

theorem decimalPlatform_clean (x : ℚ) :
    decimalPlatform.clean x = formatFixed 0 x ∨ decimalPlatform.clean x = formatFixed 15 x := by
  unfold DoublePlatform.clean
  split
  · exact Or.inl rfl
  · exact Or.inr rfl

/- A whole number is printed without places and reads back. -/
theorem decimalPlatform_clean_whole (z : ℤ) :
    decimalPlatform.ofText (decimalPlatform.clean (z : ℚ)) = some (z : ℚ) := by
  have hremainder : decimalPlatform.truncatingRemainder (z : ℚ) (decimalPlatform.intLiteral 1) =
      decimalPlatform.intLiteral 0 := by
    simp [decimalPlatform]
  have hclean : decimalPlatform.clean (z : ℚ) = formatFixed 0 (z : ℚ) := by
    unfold DoublePlatform.clean
    rw [hremainder, decimalPlatform_exact.beq, decide_eq_true rfl]
    rfl
  rw [hclean]
  exact readDecimal_formatFixed_int z

theorem not_sign_of_typed {t : Text} (ht : Typed t) : ∀ c ∈ t.head?, c ≠ '-' ∧ c ≠ '+' := by
  intro c hc
  rcases ht c (List.mem_of_mem_head? hc) with h | rfl
  · exact ⟨by rintro rfl; exact absurd h (by decide), by rintro rfl; exact absurd h (by decide)⟩
  · exact ⟨by decide, by decide⟩

/- A typed text that is no decimal numeral does not read. -/
theorem readDecimal_eq_none {t : Text} (ht : Typed t) (hne : ∀ d : Decimal, d.text ≠ t) :
    readDecimal t = none := by
  rw [readDecimal_of_unsigned (not_sign_of_typed ht)]
  cases h : readUnsigned t with
  | none => rfl
  | some v =>
    obtain ⟨d, hd, _⟩ := readUnsigned_sound h
    exact absurd hd (hne d)

theorem decimalPlatform_reads : decimalPlatform.ReadsNumerals where
  numeral d := by
    show (readDecimal d.text).isSome
    rw [readDecimal_text]
    rfl
  clean x := by
    show (readDecimal (decimalPlatform.clean x)).isSome
    rcases decimalPlatform_clean x with h | h <;> rw [h, readDecimal_formatFixed] <;> rfl
  noDigit t ht hno := by
    refine readDecimal_eq_none ht fun d hd => ?_
    obtain ⟨c, hc, hcd⟩ := d.exists_digit
    rw [hd] at hc
    rw [hno c hc] at hcd
    cases hcd
  twoPoints t ht hdots := by
    refine readDecimal_eq_none ht fun d hd => ?_
    have hone := d.count_dot_le
    rw [hd] at hone
    omega

end PracticeApps.CalculatorApp
