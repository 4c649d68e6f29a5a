import Mathlib.Data.List.Basic
import Mathlib.Data.Int.Notation

/-!
# Row counts of a table view

A table view keeps the number of rows it last saw and asks its data source for
the new number when rows are inserted or deleted. A batch of updates is refused
with an exception unless every index is in range and
`rows after = rows before + inserted - deleted`.
-/

namespace PracticeApps.TableView

inductive TableError where
  | rowOutOfRange (row : ℤ)
  | invalidRowCount (before after : ℕ)
  deriving DecidableEq, Repr

def InRange (row : ℤ) (rows : ℕ) : Prop := 0 ≤ row ∧ row < rows

instance (row : ℤ) (rows : ℕ) : Decidable (InRange row rows) := by
  unfold InRange; infer_instance

/-- `beginUpdates` ... `endUpdates` with the rows deleted (indices before the batch) and
inserted (indices after it); `after` is what the data source then answers. -/
def batchUpdate (before after : ℕ) (deleted inserted : List ℤ) : Except TableError ℕ :=
  match deleted.find? (fun r => ¬ InRange r before), inserted.find? (fun r => ¬ InRange r after) with
  | some r, _ => .error (.rowOutOfRange r)
  | none, some r => .error (.rowOutOfRange r)
  | none, none =>
    if after + deleted.length = before + inserted.length then .ok after
    else .error (.invalidRowCount before after)

/-- `scrollToRow(at:at:animated:)`. -/
def scrollToRow (rows : ℕ) (row : ℤ) : Except TableError Unit :=
  if InRange row rows then .ok () else .error (.rowOutOfRange row)

/- The rule a batch has to satisfy. -/
def BatchRule (before after : ℕ) (deleted inserted : List ℤ) : Prop :=
  (∀ r ∈ deleted, InRange r before) ∧ (∀ r ∈ inserted, InRange r after) ∧
    after + deleted.length = before + inserted.length

theorem batchUpdate_ok_iff (before after rows : ℕ) (deleted inserted : List ℤ) :
    batchUpdate before after deleted inserted = .ok rows ↔
      BatchRule before after deleted inserted ∧ rows = after := by
  unfold batchUpdate BatchRule
  cases hd : deleted.find? (fun r => ¬ InRange r before) with
  | some r =>
    have hr : ¬ InRange r before := by simpa using List.find?_some hd
    have hm := List.mem_of_find?_eq_some hd
    simp only [reduceCtorEq, false_iff]
    intro h
    exact hr (h.1.1 r hm)
  | none =>
    have hall : ∀ r ∈ deleted, InRange r before := by simpa using hd
    cases hi : inserted.find? (fun r => ¬ InRange r after) with
    | some r =>
      have hr : ¬ InRange r after := by simpa using List.find?_some hi
      have hm := List.mem_of_find?_eq_some hi
      simp only [reduceCtorEq, false_iff]
      intro h
      exact hr (h.1.2.1 r hm)
    | none =>
      have hall' : ∀ r ∈ inserted, InRange r after := by simpa using hi
      dsimp only
      split
      next hcount =>
        constructor
        · intro h
          cases h
          exact ⟨⟨hall, hall', hcount⟩, rfl⟩
        · intro h
          rw [h.2]
      next hcount =>
        simp only [reduceCtorEq, false_iff]
        intro h
        exact hcount h.1.2.2

theorem batchUpdate_ok {before after : ℕ} {deleted inserted : List ℤ}
    (h : BatchRule before after deleted inserted) :
    batchUpdate before after deleted inserted = .ok after :=
  (batchUpdate_ok_iff ..).mpr ⟨h, rfl⟩

theorem batchUpdate_error {before after : ℕ} {deleted inserted : List ℤ}
    (h : ¬ BatchRule before after deleted inserted) :
    ∃ e, batchUpdate before after deleted inserted = .error e := by
  cases hb : batchUpdate before after deleted inserted with
  | error e => exact ⟨e, rfl⟩
  | ok rows => exact absurd ((batchUpdate_ok_iff ..).mp hb).1 h

theorem scrollToRow_ok_iff (rows : ℕ) (row : ℤ) :
    scrollToRow rows row = .ok () ↔ InRange row rows := by
  unfold scrollToRow
  split
  next h => simp [h]
  next h => simp [h]

end PracticeApps.TableView
