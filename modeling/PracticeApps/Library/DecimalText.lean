import Mathlib.Data.Rat.Floor
import Mathlib.Algebra.Order.Floor.Ring
import Mathlib.Tactic.Linarith
import Mathlib.Tactic.FieldSimp
import Mathlib.Tactic.Ring
import Mathlib.Tactic.NormNum

/-!
# Decimal numerals as text

Strings are lists of characters. `Decimal` is an unsigned numeral as it is
written: digits, at most one point, at least one digit. `readDecimal` reads a
numeral with an optional sign as the rational it denotes, and `formatFixed`
prints a rational to a fixed number of places (printf's `%.kf` on an exact
value: nearest, ties to even). The reader accepts exactly the numerals and
reads back what the printer wrote.
-/

namespace PracticeApps.DecimalText

abbrev Text := List Char

/-! ### Numerals -/

def AllDigits (t : Text) : Prop := ∀ c ∈ t, c.isDigit = true

instance (t : Text) : Decidable (AllDigits t) :=
  List.decidableBAll (fun c : Char => c.isDigit = true) t

theorem allDigits_append {t u : Text} : AllDigits (t ++ u) ↔ AllDigits t ∧ AllDigits u := by
  simp only [AllDigits, List.mem_append, or_imp, forall_and]

theorem dot_not_mem {t : Text} (h : AllDigits t) : '.' ∉ t := fun hm =>
  absurd (h '.' hm) (by decide)

def digitsValue (t : Text) : ℕ := Nat.ofDigitChars 10 t 0

/-- Digits before the point, digits after it. -/
def decimalValue (whole fraction : Text) : ℚ :=
  digitsValue whole + digitsValue fraction / 10 ^ fraction.length

/-- An unsigned numeral as written; `fraction` is there when the point is. -/
structure Decimal where
  whole : Text
  fraction : Option Text
  whole_digits : AllDigits whole
  fraction_digits : AllDigits (fraction.getD [])
  nonempty : whole ++ fraction.getD [] ≠ []

def Decimal.text (d : Decimal) : Text :=
  match d.fraction with
  | none => d.whole
  | some f => d.whole ++ '.' :: f

def Decimal.value (d : Decimal) : ℚ := decimalValue d.whole (d.fraction.getD [])

theorem Decimal.text_of_none {d : Decimal} (h : d.fraction = none) : d.text = d.whole := by
  simp only [Decimal.text, h]

theorem Decimal.text_of_some {d : Decimal} {f : Text} (h : d.fraction = some f) :
    d.text = d.whole ++ '.' :: f := by
  simp only [Decimal.text, h]

theorem Decimal.count_dot_le (d : Decimal) : d.text.count '.' ≤ 1 := by
  have hw := List.count_eq_zero.mpr (dot_not_mem d.whole_digits)
  cases hf : d.fraction with
  | none => rw [Decimal.text_of_none hf, hw]; omega
  | some f =>
    have hd : AllDigits f := by simpa [hf] using d.fraction_digits
    have h := List.count_eq_zero.mpr (dot_not_mem hd)
    rw [Decimal.text_of_some hf, List.count_append, List.count_cons_self, hw, h]

theorem Decimal.exists_digit (d : Decimal) : ∃ c ∈ d.text, c.isDigit = true := by
  have hne := d.nonempty
  have hfd := d.fraction_digits
  cases hf : d.fraction with
  | none =>
    rw [Decimal.text_of_none hf]
    rw [hf, Option.getD_none, List.append_nil] at hne
    obtain ⟨c, hc⟩ := List.exists_mem_of_ne_nil _ hne
    exact ⟨c, hc, d.whole_digits c hc⟩
  | some f =>
    rw [Decimal.text_of_some hf]
    rw [hf, Option.getD_some] at hne hfd
    obtain ⟨c, hc⟩ := List.exists_mem_of_ne_nil _ hne
    rcases List.mem_append.mp hc with hc | hc
    · exact ⟨c, List.mem_append_left _ hc, d.whole_digits c hc⟩
    · exact ⟨c, by simp [hc], hfd c hc⟩

/-- The value of a numeral without a fraction is a whole number. -/
theorem Decimal.value_whole {d : Decimal} (h : d.fraction.getD [] = []) :
    d.value = ((digitsValue d.whole : ℤ) : ℚ) := by
  simp [Decimal.value, decimalValue, h, digitsValue]

theorem digitsValue_cons (c : Char) (t : Text) :
    digitsValue (c :: t) = 10 ^ t.length * (c.toNat - '0'.toNat) + digitsValue t := by
  unfold digitsValue
  rw [Nat.ofDigitChars_cons, Nat.ofDigitChars_eq_ofDigitChars_zero, Nat.mul_zero, Nat.zero_add]

theorem digitsValue_lt {t : Text} (h : AllDigits t) : digitsValue t < 10 ^ t.length := by
  induction t with
  | nil => simp [digitsValue]
  | cons c t ih =>
    have hc := Char.isDigit_iff_toNat.mp (h c List.mem_cons_self)
    have ht := ih fun b hb => h b (List.mem_cons_of_mem _ hb)
    have hdigit : c.toNat - '0'.toNat ≤ 9 := by
      have hnine : '9'.toNat = '0'.toNat + 9 := rfl
      omega
    have hmul := Nat.mul_le_mul_left (10 ^ t.length) hdigit
    rw [digitsValue_cons, List.length_cons, Nat.pow_succ]
    omega

theorem digitsValue_eq_zero_iff {t : Text} (h : AllDigits t) :
    digitsValue t = 0 ↔ ∀ c ∈ t, c = '0' := by
  induction t with
  | nil => simp [digitsValue]
  | cons c t ih =>
    have hc := Char.isDigit_iff_toNat.mp (h c List.mem_cons_self)
    have hpow : 0 < 10 ^ t.length := Nat.pow_pos (by omega)
    have hzero : c = '0' ↔ c.toNat - '0'.toNat = 0 := by
      rw [← Char.toNat_inj]
      omega
    rw [digitsValue_cons, Nat.add_eq_zero_iff, ih fun b hb => h b (List.mem_cons_of_mem _ hb),
      Nat.mul_eq_zero, or_iff_right hpow.ne', ← hzero]
    simp

/-- A numeral denotes a whole number when its fraction digits are missing or all zero. -/
theorem Decimal.floor_value_iff (d : Decimal) :
    (⌊d.value⌋ : ℚ) = d.value ↔ ∀ c ∈ d.fraction.getD [], c = '0' := by
  have hlt := digitsValue_lt d.fraction_digits
  have hpow : (0 : ℚ) < 10 ^ (d.fraction.getD []).length := by positivity
  have hfloor : ⌊d.value⌋ = (digitsValue d.whole : ℤ) := by
    rw [Int.floor_eq_iff]
    unfold Decimal.value decimalValue
    have hnonneg : (0 : ℚ) ≤ digitsValue (d.fraction.getD []) / 10 ^ (d.fraction.getD []).length := by
      positivity
    have hone : (digitsValue (d.fraction.getD []) : ℚ) / 10 ^ (d.fraction.getD []).length < 1 := by
      rw [div_lt_one hpow]
      exact_mod_cast hlt
    push_cast
    exact ⟨by linarith, by linarith⟩
  rw [hfloor, ← digitsValue_eq_zero_iff d.fraction_digits]
  unfold Decimal.value decimalValue
  push_cast
  rw [left_eq_add, div_eq_zero_iff, or_iff_left hpow.ne']
  exact_mod_cast Iff.rfl

/-- A text of digits and points with a digit and at most one point is a numeral. -/
theorem exists_decimal {t : Text} (htyped : ∀ c ∈ t, c.isDigit = true ∨ c = '.')
    (hdigit : ∃ c ∈ t, c.isDigit = true) (hdots : t.count '.' ≤ 1) :
    ∃ d : Decimal, d.text = t := by
  by_cases hdot : '.' ∈ t
  · obtain ⟨w, f, rfl⟩ := List.append_of_mem hdot
    have hcount : w.count '.' = 0 ∧ f.count '.' = 0 := by
      rw [List.count_append, List.count_cons_self] at hdots
      omega
    have hw : AllDigits w := fun c hc => by
      rcases htyped c (by simp [hc]) with h | h
      · exact h
      · exact absurd (h ▸ hc) (List.count_eq_zero.mp hcount.1)
    have hf : AllDigits f := fun c hc => by
      rcases htyped c (by simp [hc]) with h | h
      · exact h
      · exact absurd (h ▸ hc) (List.count_eq_zero.mp hcount.2)
    have hne : w ++ f ≠ [] := by
      intro hnil
      obtain ⟨c, hc, hcd⟩ := hdigit
      obtain ⟨rfl, rfl⟩ := List.append_eq_nil_iff.mp hnil
      have hcdot : c = '.' := by simpa using hc
      rw [hcdot] at hcd
      exact absurd hcd (by decide)
    exact ⟨⟨w, some f, hw, hf, hne⟩, rfl⟩
  · have hw : AllDigits t := fun c hc => by
      rcases htyped c hc with h | h
      · exact h
      · exact absurd (h ▸ hc) hdot
    have hne : t ++ (none : Option Text).getD [] ≠ [] := by
      obtain ⟨c, hc, _⟩ := hdigit
      simpa using List.ne_nil_of_mem hc
    exact ⟨⟨t, none, hw, by simp [AllDigits], hne⟩, rfl⟩

/-! ### Reading -/

def readUnsigned (t : Text) : Option ℚ :=
  let whole := t.takeWhile Char.isDigit
  match t.dropWhile Char.isDigit with
  | [] => if whole = [] then none else some (decimalValue whole [])
  | c :: f =>
    if c = '.' ∧ AllDigits f ∧ whole ++ f ≠ [] then some (decimalValue whole f) else none

/-- An optional sign, then an unsigned numeral. -/
def readDecimal : Text → Option ℚ
  | '-' :: t => (readUnsigned t).map fun v => -v
  | '+' :: t => readUnsigned t
  | t => readUnsigned t

theorem takeWhile_digits {w r : Text} (hw : AllDigits w)
    (hr : ∀ c ∈ r.head?, c.isDigit = false) :
    (w ++ r).takeWhile Char.isDigit = w ∧ (w ++ r).dropWhile Char.isDigit = r := by
  have hr' : r.takeWhile Char.isDigit = [] ∧ r.dropWhile Char.isDigit = r := by
    cases r with
    | nil => exact ⟨rfl, rfl⟩
    | cons c r =>
      have hc := hr c rfl
      simp [hc]
  rw [List.takeWhile_append_of_pos hw, List.dropWhile_append_of_pos hw, hr'.1, hr'.2,
    List.append_nil]
  exact ⟨rfl, rfl⟩

/-- The reader gives every numeral its value. -/
theorem readUnsigned_text (d : Decimal) : readUnsigned d.text = some d.value := by
  have hne := d.nonempty
  have hfd := d.fraction_digits
  cases hf : d.fraction with
  | none =>
    rw [hf] at hne
    simp only [Option.getD_none, List.append_nil] at hne
    obtain ⟨h1, h2⟩ := takeWhile_digits (r := []) d.whole_digits (by simp)
    rw [List.append_nil] at h1 h2
    simp only [readUnsigned, Decimal.text_of_none hf, h1, h2, Decimal.value, hf, hne,
      Option.getD_none, ite_false]
  | some f =>
    rw [hf] at hne hfd
    simp only [Option.getD_some] at hne hfd
    obtain ⟨h1, h2⟩ := takeWhile_digits (r := '.' :: f) d.whole_digits (by simp)
    simp only [readUnsigned, Decimal.text_of_some hf, h1, h2, Decimal.value, hf, hfd,
      Option.getD_some, ne_eq, hne, not_false_eq_true, and_self, ite_true]

/-- What the reader accepts is a numeral. -/
theorem readUnsigned_sound {t : Text} {v : ℚ} (h : readUnsigned t = some v) :
    ∃ d : Decimal, d.text = t ∧ d.value = v := by
  have hsplit := List.takeWhile_append_dropWhile (p := Char.isDigit) (l := t)
  have hw : AllDigits (t.takeWhile Char.isDigit) :=
    List.all_eq_true.mp List.all_takeWhile
  simp only [readUnsigned] at h
  cases hd : t.dropWhile Char.isDigit with
  | nil =>
    rw [hd, List.append_nil] at hsplit
    simp only [hd] at h
    split_ifs at h with hne
    refine ⟨⟨t.takeWhile Char.isDigit, none, hw, by simp [AllDigits], by simpa using hne⟩,
      ?_, ?_⟩
    · rw [Decimal.text_of_none rfl]
      exact hsplit
    · exact Option.some.inj h
  | cons c f =>
    rw [hd] at hsplit
    simp only [hd] at h
    split_ifs at h with hc
    obtain ⟨rfl, hf, hne⟩ := hc
    refine ⟨⟨t.takeWhile Char.isDigit, some f, hw, hf, hne⟩, ?_, ?_⟩
    · rw [Decimal.text_of_some rfl]
      exact hsplit
    · exact Option.some.inj h

theorem head_text_ne_sign (d : Decimal) : ∀ c ∈ d.text.head?, c ≠ '-' ∧ c ≠ '+' := by
  have hall : ∀ c ∈ d.text, c.isDigit = true ∨ c = '.' := by
    intro c hc
    cases hf : d.fraction with
    | none =>
      rw [Decimal.text_of_none hf] at hc
      exact Or.inl (d.whole_digits c hc)
    | some f =>
      rw [Decimal.text_of_some hf, List.mem_append, List.mem_cons] at hc
      have hfd : AllDigits f := by simpa [hf] using d.fraction_digits
      rcases hc with hc | rfl | hc
      · exact Or.inl (d.whole_digits c hc)
      · exact Or.inr rfl
      · exact Or.inl (hfd c hc)
  intro c hc
  rcases hall c (List.mem_of_mem_head? hc) with h | rfl
  · exact ⟨by rintro rfl; exact absurd h (by decide), by rintro rfl; exact absurd h (by decide)⟩
  · exact ⟨by decide, by decide⟩

theorem readDecimal_of_unsigned {t : Text} (h : ∀ c ∈ t.head?, c ≠ '-' ∧ c ≠ '+') :
    readDecimal t = readUnsigned t := by
  unfold readDecimal
  split
  · exact absurd rfl (h '-' rfl).1
  · exact absurd rfl (h '+' rfl).2
  · rfl

theorem readDecimal_text (d : Decimal) : readDecimal d.text = some d.value := by
  rw [readDecimal_of_unsigned (head_text_ne_sign d), readUnsigned_text]

theorem readDecimal_neg_text (d : Decimal) : readDecimal ('-' :: d.text) = some (-d.value) := by
  simp only [readDecimal, readUnsigned_text, Option.map_some]

/-! ### Printing to a fixed number of places -/

/-- The nearest integer; a tie goes to the even one. -/
def roundHalfEven (x : ℚ) : ℤ :=
  let below := ⌊x⌋
  if x - below < 1 / 2 then below
  else if 1 / 2 < x - below then below + 1
  else if below % 2 = 0 then below else below + 1

theorem roundHalfEven_intCast (z : ℤ) : roundHalfEven (z : ℚ) = z := by
  simp [roundHalfEven]

theorem roundHalfEven_nonneg {x : ℚ} (hx : 0 ≤ x) : 0 ≤ roundHalfEven x := by
  have h : 0 ≤ ⌊x⌋ := Int.floor_nonneg.mpr hx
  unfold roundHalfEven
  dsimp only
  split_ifs <;> omega

/-- `n` with leading zeros to at least `k` digits. -/
def paddedDigits (k n : ℕ) : Text :=
  List.replicate (k - (Nat.toDigits 10 n).length) '0' ++ Nat.toDigits 10 n

theorem allDigits_toDigits (n : ℕ) : AllDigits (Nat.toDigits 10 n) := fun _ hc =>
  Nat.isDigit_of_mem_toDigits (by norm_num) (by norm_num) hc

theorem allDigits_paddedDigits (k n : ℕ) : AllDigits (paddedDigits k n) := by
  refine allDigits_append.mpr ⟨fun c hc => ?_, allDigits_toDigits n⟩
  rw [(List.mem_replicate.mp hc).2]
  decide

theorem digitsValue_toDigits (n : ℕ) : digitsValue (Nat.toDigits 10 n) = n :=
  Nat.ofDigitChars_ten_toDigits

theorem digitsValue_paddedDigits (k n : ℕ) : digitsValue (paddedDigits k n) = n := by
  simp only [digitsValue, paddedDigits, Nat.ofDigitChars_append,
    Nat.ofDigitChars_replicate_zero, Nat.mul_zero]
  exact digitsValue_toDigits n

theorem paddedDigits_length {k n : ℕ} (hk : 0 < k) (hn : n < 10 ^ k) :
    (paddedDigits k n).length = k := by
  have h := (Nat.length_toDigits_le_iff (b := 10) (by norm_num) hk).mpr hn
  simp only [paddedDigits, List.length_append, List.length_replicate]
  omega

/-- The numeral of `n / 10 ^ k`, written with `k` places. -/
def fixedNumeral (k n : ℕ) : Decimal where
  whole := Nat.toDigits 10 (n / 10 ^ k)
  fraction := if k = 0 then none else some (paddedDigits k (n % 10 ^ k))
  whole_digits := allDigits_toDigits _
  fraction_digits := by
    split
    · simp [AllDigits]
    · exact allDigits_paddedDigits _ _
  nonempty := by simp

theorem fixedNumeral_value (k n : ℕ) : (fixedNumeral k n).value = n / 10 ^ k := by
  by_cases hk : k = 0
  · simp [Decimal.value, fixedNumeral, hk, decimalValue, digitsValue_toDigits]
    simp [digitsValue]
  · have hlen := paddedDigits_length (Nat.pos_of_ne_zero hk)
      (Nat.mod_lt n (Nat.pow_pos (by norm_num : 0 < 10)))
    simp only [Decimal.value, fixedNumeral, hk, ite_false, Option.getD_some, decimalValue,
      digitsValue_toDigits, digitsValue_paddedDigits, hlen]
    have hsplit : ((10 ^ k * (n / 10 ^ k) + n % 10 ^ k : ℕ) : ℚ) = n := by
      rw [Nat.div_add_mod]
    push_cast at hsplit
    rw [eq_div_iff (by positivity)]
    field_simp
    linarith

/-- printf's `%.kf` on an exact value. -/
def formatFixed (k : ℕ) (x : ℚ) : Text :=
  let numeral := fixedNumeral k (roundHalfEven (|x| * 10 ^ k)).toNat
  if x < 0 then '-' :: numeral.text else numeral.text

/-- The printed text reads back as the rounded value. -/
theorem readDecimal_formatFixed (k : ℕ) (x : ℚ) :
    readDecimal (formatFixed k x) =
      some ((if x < 0 then -1 else 1) * ((roundHalfEven (|x| * 10 ^ k) : ℚ) / 10 ^ k)) := by
  have hnn : 0 ≤ roundHalfEven (|x| * 10 ^ k) := roundHalfEven_nonneg (by positivity)
  have hcast : (((roundHalfEven (|x| * 10 ^ k)).toNat : ℕ) : ℚ) =
      (roundHalfEven (|x| * 10 ^ k) : ℚ) := by
    exact_mod_cast Int.toNat_of_nonneg hnn
  unfold formatFixed
  dsimp only
  split_ifs with hx
  · rw [readDecimal_neg_text, fixedNumeral_value, hcast, neg_one_mul]
  · rw [readDecimal_text, fixedNumeral_value, hcast, one_mul]

/-- A whole number printed without places reads back exactly. -/
theorem readDecimal_formatFixed_int (z : ℤ) : readDecimal (formatFixed 0 (z : ℚ)) = some (z : ℚ) := by
  rw [readDecimal_formatFixed]
  have habs : |(z : ℚ)| * 10 ^ 0 = ((|z| : ℤ) : ℚ) := by push_cast; ring
  rw [habs, roundHalfEven_intCast]
  rcases lt_or_ge z 0 with hz | hz
  · have hq : (z : ℚ) < 0 := by exact_mod_cast hz
    rw [if_pos hq, abs_of_neg hz]
    push_cast
    ring_nf
  · have hq : ¬ (z : ℚ) < 0 := by exact_mod_cast not_lt.mpr hz
    rw [if_neg hq, abs_of_nonneg hz]
    ring_nf

end PracticeApps.DecimalText
