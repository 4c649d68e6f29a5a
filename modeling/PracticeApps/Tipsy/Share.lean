import PracticeApps.Tipsy.SplitBill

/-!
# The share shown

Both branches of `calculateTotalPerPerson` compute the share of bill and tip.
Printed to cents it is at most half a cent off, and the order of the exact
shares stays the order of those shown.
-/

namespace PracticeApps.Tipsy
open DecimalText EventMachine Rounding

/-- The exact share of a bill with its tip. -/
def exactShare (amount : ℚ) (t : TipPercentage) (n : ℤ) : ℚ := amount * (1 + t.value / 100) / n

/- The branch without a tip agrees with the other one. -/
theorem calculateTotalPerPerson_eq (amount : ℚ) (n : ℤ) (t : TipPercentage) :
    SplitBill.calculateTotalPerPerson ⟨amount, n, t⟩ = exactShare amount t n := by
  unfold SplitBill.calculateTotalPerPerson exactShare TipPercentage.decimalValue
    TipPercentage.value
  cases t with
  | zero => simp [TipPercentage.rawValue]
  | ten =>
    simp only [TipPercentage.rawValue, ne_eq, reduceCtorEq, not_false_eq_true, if_true]
    ring
  | twenty =>
    simp only [TipPercentage.rawValue, ne_eq, reduceCtorEq, not_false_eq_true, if_true]
    ring

theorem value_nonneg (t : TipPercentage) : (0 : ℚ) ≤ t.value := by
  cases t <;> norm_num [TipPercentage.value, TipPercentage.rawValue]

theorem total_nonneg {amount : ℚ} (hamount : 0 ≤ amount) (t : TipPercentage) :
    0 ≤ amount * (1 + t.value / 100) := by
  have := value_nonneg t
  positivity

theorem exactShare_nonneg {amount : ℚ} {n : ℤ} (hamount : 0 ≤ amount) (t : TipPercentage)
    (hn : 1 ≤ n) : 0 ≤ exactShare amount t n := by
  have hpos : (0 : ℚ) ≤ n := by exact_mod_cast (by omega : 0 ≤ n)
  exact div_nonneg (total_nonneg hamount t) hpos

theorem exactShare_mono {amount amount' : ℚ} {t t' : TipPercentage} {n n' : ℤ}
    (hamount : 0 ≤ amount) (hle : amount ≤ amount') (ht : t.value ≤ t'.value) (hn' : 1 ≤ n')
    (hn : n' ≤ n) : exactShare amount t n ≤ exactShare amount' t' n' := by
  have hvalue : (t.value : ℚ) ≤ t'.value := by exact_mod_cast ht
  have hpeople : (n' : ℚ) ≤ n := by exact_mod_cast hn
  have hpos : (0 : ℚ) < n' := by exact_mod_cast (by omega : 0 < n')
  have hfactor : 1 + (t.value : ℚ) / 100 ≤ 1 + t'.value / 100 := by linarith
  have hone : (0 : ℚ) ≤ 1 + t.value / 100 := by linarith [value_nonneg t]
  have htotal : amount * (1 + t.value / 100) ≤ amount' * (1 + t'.value / 100) :=
    mul_le_mul hle hfactor hone (hamount.trans hle)
  exact div_le_div₀ (total_nonneg (hamount.trans hle) t') htotal hpos hpeople

/-- The number on the results screen. -/
def Shows (bill : SplitBill) (share : ℚ) : Prop :=
  readDecimal (ResultsViewController.setupView (some bill)).totalLabel = some share

theorem shows_iff {amount share : ℚ} {t : TipPercentage} {n : ℤ} (hamount : 0 ≤ amount)
    (hn : 1 ≤ n) : Shows ⟨amount, n, t⟩ share ↔
      share = (roundHalfEven (exactShare amount t n * 10 ^ 2) : ℚ) / 10 ^ 2 := by
  unfold Shows ResultsViewController.setupView
  dsimp only [Option.map_some, Option.getD_some]
  rw [calculateTotalPerPerson_eq, readDecimal_formatFixed_nonneg 2 (exactShare_nonneg hamount t hn),
    Option.some.injEq, eq_comm]

/- The three tips. -/
theorem ofRawValue_value {percent : ℤ} (h : percent = 0 ∨ percent = 10 ∨ percent = 20) :
    ∃ t, TipPercentage.ofRawValue percent = some t ∧ t.value = percent := by
  rcases h with rfl | rfl | rfl
  · exact ⟨.zero, rfl, rfl⟩
  · exact ⟨.ten, rfl, rfl⟩
  · exact ⟨.twenty, rfl, rfl⟩

theorem value_of_ofRawValue {percent : ℤ} {t : TipPercentage}
    (h : TipPercentage.ofRawValue percent = some t) : t.value = percent := by
  unfold TipPercentage.ofRawValue at h
  split_ifs at h with hzero hten htwenty
  · cases h
    exact hzero.symm
  · cases h
    exact hten.symm
  · cases h
    exact htwenty.symm

/-- For every amount, a tip of 0, 10 or 20 percent and every number of people: the share
shown is within half a cent of the exact share, the people together are within that of bill
and tip for each of them, and nobody is shown less for a larger amount, a larger tip or fewer
people. -/
theorem share_accurate (amount : ℚ) (hamount : 0 ≤ amount) (percent : ℤ)
    (hpercent : percent = 0 ∨ percent = 10 ∨ percent = 20) (n : ℤ) (hn : 1 ≤ n) :
    ∃ t share, TipPercentage.ofRawValue percent = some t ∧ Shows ⟨amount, n, t⟩ share ∧
      |share - amount * (1 + percent / 100) / n| ≤ 1 / 200 ∧
      |n * share - amount * (1 + percent / 100)| ≤ n / 200 ∧
      ∀ amount' percent' t' n' share', amount ≤ amount' → percent ≤ percent' →
        TipPercentage.ofRawValue percent' = some t' → 1 ≤ n' → n' ≤ n →
        Shows ⟨amount', n', t'⟩ share' → share ≤ share' := by
  have hpos : (0 : ℚ) < n := by exact_mod_cast (by omega : 0 < n)
  obtain ⟨t, ht, hvalue⟩ := ofRawValue_value hpercent
  have hshows := (shows_iff (t := t) hamount hn).mpr rfl
  have herror : |(roundHalfEven (exactShare amount t n * 10 ^ 2) : ℚ) / 10 ^ 2 -
      amount * (1 + percent / 100) / n| ≤ 1 / 200 := by
    have hcent := abs_printed_sub_le 2 (exactShare amount t n)
    unfold exactShare at hcent ⊢
    rw [hvalue] at hcent ⊢
    norm_num at hcent ⊢
    exact hcent
  refine ⟨t, _, ht, hshows, herror, ?_, ?_⟩
  · have hscaled : n * ((roundHalfEven (exactShare amount t n * 10 ^ 2) : ℚ) / 10 ^ 2) -
        amount * (1 + percent / 100) =
        n * ((roundHalfEven (exactShare amount t n * 10 ^ 2) : ℚ) / 10 ^ 2 -
          amount * (1 + percent / 100) / n) := by
      field_simp
    rw [hscaled, abs_mul, abs_of_pos hpos]
    calc (n : ℚ) * _ ≤ n * (1 / 200) := mul_le_mul_of_nonneg_left herror hpos.le
      _ = n / 200 := by ring
  · intro amount' percent' t' n' share' hle hmore ht' hn' hfewer hshows'
    have hvalue' := value_of_ofRawValue ht'
    rw [(shows_iff (hamount.trans hle) hn').mp hshows']
    exact printed_mono 2 (exactShare_mono hamount hle (by omega) hn' hfewer)

/- 100.10 with ten percent for three. -/
theorem hundred_for_three_accurate :
    ∃ t share, TipPercentage.ofRawValue 10 = some t ∧ Shows ⟨100.1, 3, t⟩ share ∧
      |share - 100.1 * (1 + (10 : ℤ) / 100) / (3 : ℤ)| ≤ 1 / 200 ∧
      |(3 : ℤ) * share - 100.1 * (1 + (10 : ℤ) / 100)| ≤ (3 : ℤ) / 200 ∧
      ∀ amount' percent' t' n' share', 100.1 ≤ amount' → 10 ≤ percent' →
        TipPercentage.ofRawValue percent' = some t' → 1 ≤ n' → n' ≤ 3 →
        Shows ⟨amount', n', t'⟩ share' → share ≤ share' :=
  share_accurate 100.1 (by norm_num) 10 (by norm_num) 3 (by norm_num)

/-! ### The app -/

/- What the controls say and what every results screen of a run shows. -/
structure Splits (s : CalculatorViewController) : Prop where
  tip : s.selectedTip.value = s.selected.tag
  people : 1 ≤ s.numOfPeople ∧ s.numOfPeople ≤ 20000
  results : ∀ r ∈ s.results, ∃ bill : SplitBill, 1 ≤ bill.numOfPeople ∧
    r = ResultsViewController.setupView (some bill)

theorem stepper_splits {s : CalculatorViewController} {value : ℚ} (hs : Splits s)
    (hvalue : 1 ≤ value ∧ value ≤ 20000) :
    ∃ r, stepperValueChanged value s = .ok r ∧ Splits r := by
  obtain ⟨hlow, hhigh⟩ := hvalue
  have hrange : -1 < value ∧ value < 2 ^ 64 := ⟨by linarith, by linarith⟩
  have hfloor : 1 ≤ ⌊value⌋ := Int.le_floor.mpr (by exact_mod_cast hlow)
  have hle : ⌊value⌋ ≤ 20000 := by
    have := (Int.floor_le value).trans hhigh
    exact_mod_cast this
  unfold stepperValueChanged
  rw [if_pos hrange]
  exact ⟨_, rfl, ⟨hs.tip, by dsimp only; omega, hs.results⟩⟩

theorem calculate_splits {double : Text → Option ℚ} {s : CalculatorViewController}
    (hs : Splits s) : ∃ r, calculateButtonPressed double s = .ok r ∧ Splits r := by
  have hpeople := hs.people
  have hfits : s.numOfPeople < 2 ^ 63 := by omega
  unfold calculateButtonPressed
  cases double s.billTextField with
  | none => exact ⟨_, rfl, ⟨hs.tip, hs.people, hs.results⟩⟩
  | some amount =>
    dsimp only
    rw [if_pos hfits]
    refine ⟨_, rfl, ⟨hs.tip, hs.people, ?_⟩⟩
    intro r hr
    rcases List.mem_append.mp hr with hr | hr
    · exact hs.results r hr
    · rw [List.mem_singleton.mp hr]
      exact ⟨_, by dsimp only; omega, rfl⟩

theorem tipChanged_splits {s : CalculatorViewController} (sender : TipButton) (hs : Splits s) :
    Splits (tipChanged sender s) := by
  have htags : sender.tag = 0 ∨ sender.tag = 10 ∨ sender.tag = 20 := by cases sender <;> decide
  obtain ⟨t, ht, htag⟩ := ofRawValue_value htags
  unfold tipChanged
  rw [ht]
  exact ⟨htag, hs.people, hs.results⟩

/-- No run traps, the tip is that of the selected button, and every results screen is that
of a bill for one person or more. -/
theorem run_splits (double : Text → Option ℚ) (events : List Event)
    (hdelivered : AtEach Delivered (handle double) viewDidLoad events) :
    ∃ s, exec (handle double) viewDidLoad events = .ok s ∧ Splits s := by
  have hload : Splits viewDidLoad := ⟨rfl, by decide, fun r hr => by cases hr⟩
  refine exec_safe (I := fun _ s => Splits s) hload ?_ hdelivered
  intro es s e hs he
  cases e with
  | typed text => exact ⟨_, rfl, ⟨hs.tip, hs.people, hs.results⟩⟩
  | tipChanged sender => exact ⟨_, rfl, tipChanged_splits sender hs⟩
  | stepperValueChanged value => exact stepper_splits hs he
  | calculateButtonPressed => exact calculate_splits hs

end PracticeApps.Tipsy
