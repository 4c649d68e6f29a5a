import PracticeApps.CalculatorApp.ViewController

/-!
# The pending slot

`intermediateCalculation` along a run: a binary operator key fills it, no other
key changes it, and nothing empties it again.
-/

namespace PracticeApps.CalculatorApp
open DecimalText EventMachine

variable {D : Type} {P : DoublePlatform D}

def NoBinaryKey (keys : List Key) : Prop := ∀ op, .operation op ∈ keys → op.isBinary = false

/- What a press does to the slot: a binary key fills it, the others keep it. -/
theorem press_pending {s r : ViewController D} {k : Key} (h : press P s k = .ok r) :
    (∃ op n, k = .operation op ∧ op.isBinary = true ∧
        r.calculator.intermediateCalculation = some (n, op)) ∨
      ((∀ op, k = .operation op → op.isBinary = false) ∧
        r.calculator.intermediateCalculation = s.calculator.intermediateCalculation) := by
  cases k with
  | number k =>
    refine Or.inr ⟨fun op he => (by cases he), ?_⟩
    rw [press_number_calculator h]
  | operation op =>
    cases hv : P.ofText s.displayLabel with
    | none => rw [press_operation_unreadable op hv] at h; cases h
    | some n =>
      rw [press_operation op hv] at h
      cases hop : op.isBinary with
      | true =>
        rw [operationPressed_binary P _ _ hop] at h
        cases h
        exact Or.inl ⟨op, n, rfl, hop, rfl⟩
      | false =>
        refine Or.inr ⟨fun op' he => (Key.operation.inj he) ▸ hop, ?_⟩
        by_cases hc : op = .compute
        · rw [hc, operationPressed_compute] at h
          split at h
          · cases h
          next heq =>
            cases h
            injection heq with _ hcalculator
            rw [← hcalculator]
            rfl
        · obtain ⟨value, hvalue⟩ := operationPressed_unary P n hop hc
          rw [hvalue] at h
          cases h
          rfl

/- Along a run from launch the slot is empty until a binary key is pressed, and
from then on it holds a binary operation. -/
def SlotFollows (keys : List Key) (s : ViewController D) : Prop :=
  (NoBinaryKey keys ∧ s.calculator.intermediateCalculation = none) ∨
    (¬ NoBinaryKey keys ∧ ∃ n op, op.isBinary = true ∧
      s.calculator.intermediateCalculation = some (n, op))

theorem slotFollows_of_exec {keys : List Key} {s : ViewController D}
    (h : exec (press P) launch keys = .ok s) : SlotFollows keys s := by
  refine exec_history (E := fun _ _ => True) (I := SlotFollows) ?_ ?_
    (atEach_of_forall (fun _ _ => trivial) _ _) h
  · exact Or.inl ⟨fun op hop => by simp at hop, rfl⟩
  · intro keys s k r hs _ hk
    have hconcat : NoBinaryKey (keys ++ [k]) ↔
        NoBinaryKey keys ∧ ∀ op, k = .operation op → op.isBinary = false := by
      simp only [NoBinaryKey, List.mem_append, List.mem_singleton, or_imp, forall_and, eq_comm]
    rcases press_pending hk with ⟨op, n, rfl, hop, hr⟩ | ⟨hop, hr⟩
    · refine Or.inr ⟨fun hno => ?_, n, op, hop, hr⟩
      rw [(hconcat.mp hno).2 op rfl] at hop
      cases hop
    · rcases hs with ⟨hno, hslot⟩ | ⟨hno, n, op, hbin, hslot⟩
      · exact Or.inl ⟨hconcat.mpr ⟨hno, hop⟩, hr.trans hslot⟩
      · exact Or.inr ⟨fun h => hno (hconcat.mp h).1, n, op, hbin, hr.trans hslot⟩

end PracticeApps.CalculatorApp
