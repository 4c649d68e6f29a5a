import Mathlib.Data.List.Sort
import Mathlib.Order.Defs.LinearOrder

/-!
# Sorting by a comparator

A sorting function takes a strict weak order and returns the elements in an
order in which nothing stands before something smaller. Where equal elements
end up is left open, so what is proved here holds of stable and of unstable
sorting functions.
-/

namespace PracticeApps.ComparatorSort

variable {α κ : Type}

/-- What a comparator has to be. -/
structure StrictWeak (lt : α → α → Bool) : Prop where
  asymm : ∀ a b, lt a b = true → lt b a = false
  neg_trans : ∀ a b c, lt a b = false → lt b c = false → lt a c = false

structure Sorter (α : Type) where
  sort : (α → α → Bool) → List α → List α
  perm : ∀ lt l, (sort lt l).Perm l
  sorted : ∀ lt l, StrictWeak lt → (sort lt l).Pairwise fun a b => lt b a = false

theorem strictWeak_of_key [LinearOrder κ] {lt : α → α → Bool} (key : α → κ)
    (h : ∀ a b, lt a b = true ↔ key a < key b) : StrictWeak lt := by
  have hfalse : ∀ a b, lt a b = false ↔ key b ≤ key a := by
    intro a b
    rw [← Bool.not_eq_true, h, not_lt]
  constructor
  · intro a b hab
    rw [hfalse]
    exact ((h a b).mp hab).le
  · intro a b c hab hbc
    rw [hfalse] at hab hbc ⊢
    exact hbc.trans hab

namespace Sorter

variable (sorter : Sorter α) {lt : α → α → Bool}

theorem length_sort (l : List α) : (sorter.sort lt l).length = l.length := (sorter.perm lt l).length_eq

theorem sort_ne_nil (lt : α → α → Bool) {l : List α} (h : l ≠ []) : sorter.sort lt l ≠ [] := by
  intro hnil
  have hlength : (sorter.sort lt l).length = l.length := sorter.length_sort l
  rw [hnil] at hlength
  exact h (List.eq_nil_of_length_eq_zero hlength.symm)

end Sorter

/- Insertion sort is one of them. -/
def insertionSorter : Sorter α where
  sort lt l := l.insertionSort fun a b => lt b a = false
  perm _ l := List.perm_insertionSort _ l
  sorted lt l h := by
    have htotal : Std.Total fun a b => lt b a = false := by
      refine ⟨fun a b => ?_⟩
      cases hba : lt b a with
      | false => exact Or.inl rfl
      | true => exact Or.inr (h.asymm b a hba)
    have htrans : IsTrans α fun a b => lt b a = false :=
      ⟨fun a b c hab hbc => h.neg_trans c b a hbc hab⟩
    exact List.pairwise_insertionSort _ l

end PracticeApps.ComparatorSort
