import PracticeApps.CalculatorApp.Chain

/-!
# The last operator and repeated '='

Operators pressed one after another store the number on the display again, each
with its own operation. The sign key and % work on the second operand and leave
the slot alone. '=' keeps the slot too, so pressing it again applies the same
operator with the same first operand.
-/

namespace PracticeApps.CalculatorApp
open DecimalText EventMachine

inductive UnaryOperator where
  | negate
  | percent
  deriving DecidableEq, Repr

def UnaryOperator.operation : UnaryOperator → CalculatorOperation
  | .negate => .negativePositive
  | .percent => .percent

def UnaryOperator.apply : UnaryOperator → ℚ → ℚ
  | .negate, x => x * -1
  | .percent, x => x / 100

def applyAll (us : List UnaryOperator) (x : ℚ) : ℚ := us.foldl (fun y u => u.apply y) x

/- What each of the unary keys prints. -/
def unaryResults : List UnaryOperator → ℚ → List ℚ
  | [], _ => []
  | u :: us, x => u.apply x :: unaryResults us (u.apply x)

def operatorKeys (ops : List BinaryOperator) : List Key := ops.map fun o => .operation o.operation

def unaryKeys (us : List UnaryOperator) : List Key := us.map fun u => .operation u.operation

def computeKeys (m : ℕ) : List Key := List.replicate m (.operation .compute)

/- Everything that is printed and then read again. -/
def valuesReached (v : ℚ) (o : BinaryOperator) (b : ℚ) (us : List UnaryOperator) (m : ℕ) : List ℚ :=
  v :: (unaryResults us b ++ (List.range m).map fun j => (o.apply v)^[j + 1] (applyAll us b))

section Exact
variable {P : DoublePlatform ℚ}

/- Only the last operator stays in the slot. -/
theorem exec_operators (ops : List BinaryOperator) (o : BinaryOperator) {s : ViewController ℚ} {v : ℚ}
    (hv : P.ofText s.displayLabel = some v) (hclean : P.ofText (P.clean v) = some v) :
    exec (press P) s (operatorKeys (ops ++ [o])) =
      .ok ⟨P.clean v, true, ⟨some v, some (v, o.operation)⟩⟩ := by
  induction ops generalizing s with
  | nil =>
    show exec (press P) s [.operation o.operation] = _
    rw [exec_singleton, press_operation _ hv, operationPressed_binary P _ _ (operation_isBinary o)]
  | cons p ops ih =>
    have hfirst : press P s (.operation p.operation) =
        .ok ⟨P.clean v, true, ⟨some v, some (v, p.operation)⟩⟩ := by
      rw [press_operation _ hv, operationPressed_binary P _ _ (operation_isBinary p)]
    show exec (press P) s (.operation p.operation :: operatorKeys (ops ++ [o])) = _
    rw [exec_cons_ok _ hfirst]
    exact ih hclean

variable (hP : P.Exact)
include hP

theorem operationPressed_unaryOperator (u : UnaryOperator) (c : Calculator ℚ) (x : ℚ) :
    (c.setNumber x).operationPressed P u.operation = (some (u.apply x), c.setNumber x) := by
  cases u with
  | negate =>
    show (some (P.mul x (P.intLiteral (-1))), c.setNumber x) = _
    rw [hP.mul, hP.intLiteral]
    norm_num [UnaryOperator.apply]
  | percent =>
    show (some (P.div x (P.intLiteral 100)), c.setNumber x) = _
    rw [hP.div, hP.intLiteral]
    norm_num [UnaryOperator.apply]

/- The unary keys work on the number on the display. -/
theorem exec_unary (us : List UnaryOperator) {s : ViewController ℚ} {x : ℚ}
    (hx : P.ofText s.displayLabel = some x)
    (hclean : ∀ y ∈ unaryResults us x, P.ofText (P.clean y) = some y) :
    ∃ r, exec (press P) s (unaryKeys us) = .ok r ∧
      P.ofText r.displayLabel = some (applyAll us x) ∧
      r.calculator.intermediateCalculation = s.calculator.intermediateCalculation := by
  induction us generalizing s x with
  | nil => exact ⟨s, rfl, hx, rfl⟩
  | cons u us ih =>
    have hfirst : press P s (.operation u.operation) =
        .ok ⟨P.clean (u.apply x), true, s.calculator.setNumber x⟩ := by
      rw [press_operation _ hx, operationPressed_unaryOperator hP]
    have hread := hclean (u.apply x) List.mem_cons_self
    obtain ⟨r, hr, hdisplay, hslot⟩ := ih (s := ⟨P.clean (u.apply x), true, s.calculator.setNumber x⟩)
      hread fun y hy => hclean y (List.mem_cons_of_mem _ hy)
    refine ⟨r, ?_, hdisplay, hslot⟩
    show exec (press P) s (.operation u.operation :: unaryKeys us) = _
    rw [exec_cons_ok _ hfirst]
    exact hr

theorem press_compute {s : ViewController ℚ} {v x : ℚ} {o : BinaryOperator}
    (hx : P.ofText s.displayLabel = some x)
    (hslot : s.calculator.intermediateCalculation = some (v, o.operation)) :
    press P s (.operation .compute) =
      .ok ⟨P.clean (o.apply v x), true, s.calculator.setNumber x⟩ := by
  have hperform : s.calculator.performTwoNumCalculation P x = some (o.apply v x) := by
    rw [← perform_operator hP o v x s.calculator.number, ← hslot]
  rw [press_operation _ hx, operationPressed_compute, hperform]

/- '=' again and again iterates the pending operation. -/
theorem exec_compute_iterate (m : ℕ) {s : ViewController ℚ} {v x : ℚ} {o : BinaryOperator}
    (hx : P.ofText s.displayLabel = some x)
    (hslot : s.calculator.intermediateCalculation = some (v, o.operation))
    (hclean : ∀ j < m + 1, P.ofText (P.clean ((o.apply v)^[j + 1] x)) =
      some ((o.apply v)^[j + 1] x)) :
    ∃ r, exec (press P) s (computeKeys (m + 1)) = .ok r ∧
      r.displayLabel = P.clean ((o.apply v)^[m + 1] x) := by
  have hfirst := press_compute hP hx hslot
  induction m generalizing s x with
  | zero =>
    refine ⟨⟨P.clean (o.apply v x), true, s.calculator.setNumber x⟩, ?_, rfl⟩
    show exec (press P) s [.operation .compute] = _
    rw [exec_singleton, hfirst]
  | succ m ih =>
    have hread : P.ofText (P.clean (o.apply v x)) = some (o.apply v x) := hclean 0 (by omega)
    obtain ⟨r, hr, hdisplay⟩ := ih (s := ⟨P.clean (o.apply v x), true, s.calculator.setNumber x⟩)
      hread hslot (fun j hj => hclean (j + 1) (by omega)) (press_compute hP hread hslot)
    refine ⟨r, ?_, hdisplay⟩
    show exec (press P) s (.operation .compute :: computeKeys (m + 1)) = _
    rw [exec_cons_ok _ hfirst]
    exact hr

/-- From any screen that reads `v`: operators, of which the last one counts, an integer
numeral, unary keys on it, and '=' `m + 1` times leave the display at the iterate of
`x ↦ v o x`, whatever was done before. -/
theorem last_operator_iterates (s : ViewController ℚ) (v : ℚ)
    (hv : P.ofText s.displayLabel = some v) (ops : List BinaryOperator) (o : BinaryOperator)
    (b : Fin 10) (bs : List (Fin 10)) (us : List UnaryOperator) (m : ℕ)
    (hclean : ∀ x ∈ valuesReached v o (wholeDecimal b bs).value us (m + 1),
      P.ofText (P.clean x) = some x) :
    ∃ r, exec (press P) s (operatorKeys (ops ++ [o]) ++ digitKeys (b :: bs) ++ unaryKeys us ++
        computeKeys (m + 1)) = .ok r ∧
      r.displayLabel = P.clean ((o.apply v)^[m + 1] (applyAll us (wholeDecimal b bs).value)) ∧
      P.ofText r.displayLabel =
        some ((o.apply v)^[m + 1] (applyAll us (wholeDecimal b bs).value)) := by
  have hcleanv := hclean v List.mem_cons_self
  have hcleanu : ∀ y ∈ unaryResults us (wholeDecimal b bs).value, P.ofText (P.clean y) = some y :=
    fun y hy => hclean y (List.mem_cons_of_mem _ (List.mem_append_left _ hy))
  have hcleanm : ∀ j < m + 1,
      P.ofText (P.clean ((o.apply v)^[j + 1] (applyAll us (wholeDecimal b bs).value))) =
        some ((o.apply v)^[j + 1] (applyAll us (wholeDecimal b bs).value)) := by
    intro j hj
    apply hclean
    refine List.mem_cons_of_mem _ (List.mem_append_right _ (List.mem_map.mpr ⟨j, ?_, rfl⟩))
    exact List.mem_range.mpr hj
  have hoperators := exec_operators ops o hv hcleanv
  have hdigits := exec_first_digits (P := P)
    (s := ⟨P.clean v, true, ⟨some v, some (v, o.operation)⟩⟩) rfl b bs
  have hb : P.ofText (digitChars (b :: bs)) = some (wholeDecimal b bs).value :=
    hP.numeral (wholeDecimal b bs)
  obtain ⟨q, hq, hqread, hqslot⟩ := exec_unary hP us
    (s := ⟨digitChars (b :: bs), false, ⟨some v, some (v, o.operation)⟩⟩) hb hcleanu
  obtain ⟨r, hr, hdisplay⟩ := exec_compute_iterate hP m hqread hqslot hcleanm
  refine ⟨r, ?_, hdisplay, ?_⟩
  · rw [List.append_assoc, List.append_assoc, exec_append_ok _ hoperators, exec_append_ok _ hdigits,
      exec_append_ok _ hq, hr]
  · rw [hdisplay]
    exact hcleanm m (by omega)

end Exact

/- Plus, then minus, 20 with its sign changed, percent, and '=' twice: 8 - (8 - -0.2). -/
theorem eight_minus_twenty_percent :
    ∃ r, exec (press decimalPlatform) ⟨['8'], false, Calculator.new⟩
        (operatorKeys ([.plus] ++ [.minus]) ++ digitKeys [2, 0] ++ unaryKeys [.negate, .percent] ++
          computeKeys (1 + 1)) = .ok r ∧
      r.displayLabel = decimalPlatform.clean ((BinaryOperator.minus.apply 8)^[1 + 1]
        (applyAll [.negate, .percent] (wholeDecimal 2 [0]).value)) ∧
      decimalPlatform.ofText r.displayLabel = some ((BinaryOperator.minus.apply 8)^[1 + 1]
        (applyAll [.negate, .percent] (wholeDecimal 2 [0]).value)) :=
  last_operator_iterates decimalPlatform_exact _ 8 (by decide +kernel) [.plus] .minus 2 [0]
    [.negate, .percent] 1 (by decide +kernel)

end PracticeApps.CalculatorApp
