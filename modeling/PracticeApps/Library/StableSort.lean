import Mathlib.Data.List.Sort
import Mathlib.Order.Defs.LinearOrder

/-!
# Stable sorting by a key

`sortBy key` keeps elements of equal key in their order. It commutes with
filters, and sorting twice is sorting once; two filters of one list give the
same sorted list only if they select the same elements.
-/

namespace PracticeApps.StableSort

variable {α κ : Type} [LinearOrder κ] (key : α → κ)

def sortBy (l : List α) : List α := l.insertionSort fun a b => key a ≤ key b

theorem pairwise_sortBy (l : List α) : (sortBy key l).Pairwise fun a b => key a ≤ key b :=
  List.pairwise_insertionSort _ l

theorem perm_sortBy (l : List α) : (sortBy key l).Perm l := List.perm_insertionSort _ l

theorem mem_sortBy {l : List α} {a : α} : a ∈ sortBy key l ↔ a ∈ l := (perm_sortBy key l).mem_iff

theorem sortBy_of_sorted {l : List α} (h : l.Pairwise fun a b => key a ≤ key b) :
    sortBy key l = l := h.insertionSort_eq

@[simp] theorem sortBy_sortBy (l : List α) : sortBy key (sortBy key l) = sortBy key l :=
  sortBy_of_sorted key (pairwise_sortBy key l)

theorem filter_orderedInsert (p : α → Bool) (a : α) (l : List α)
    (h : l.Pairwise fun a b => key a ≤ key b) :
    (l.orderedInsert (fun a b => key a ≤ key b) a).filter p =
      if p a then (l.filter p).orderedInsert (fun a b => key a ≤ key b) a else l.filter p := by
  induction l with
  | nil => cases hp : p a <;> simp [hp]
  | cons b l ih =>
    obtain ⟨hb, hl⟩ := List.pairwise_cons.mp h
    by_cases hab : key a ≤ key b
    · -- `a` goes in front, and stays in front of whatever the filter keeps
      rw [List.orderedInsert_cons, if_pos hab]
      cases hp : p a with
      | false => simp [hp]
      | true =>
        rw [List.filter_cons_of_pos hp, if_pos rfl]
        cases hf : (b :: l).filter p with
        | nil => rfl
        | cons c m =>
          have hc : c ∈ b :: l := List.mem_of_mem_filter (by rw [hf]; exact List.mem_cons_self)
          have hac : key a ≤ key c := by
            rcases List.mem_cons.mp hc with rfl | hc
            · exact hab
            · exact hab.trans (hb c hc)
          rw [List.orderedInsert_cons, if_pos hac]
    · rw [List.orderedInsert_cons, if_neg hab]
      cases hpb : p b with
      | false =>
        rw [List.filter_cons_of_neg (by simp [hpb]), List.filter_cons_of_neg (by simp [hpb])]
        exact ih hl
      | true =>
        rw [List.filter_cons_of_pos hpb, List.filter_cons_of_pos hpb, ih hl]
        cases hp : p a with
        | false => rfl
        | true => rw [if_pos rfl, if_pos rfl, List.orderedInsert_cons, if_neg hab]

theorem filter_sortBy (p : α → Bool) (l : List α) :
    (sortBy key l).filter p = sortBy key (l.filter p) := by
  induction l with
  | nil => rfl
  | cons a l ih =>
    show ((sortBy key l).orderedInsert _ a).filter p = _
    rw [filter_orderedInsert key p a _ (pairwise_sortBy key l), ih]
    cases hp : p a with
    | false => rw [List.filter_cons_of_neg (by simp [hp])]; rfl
    | true => rw [List.filter_cons_of_pos hp]; rfl

/-- A change that leaves the keys alone does not change the order. -/
theorem map_sortBy {f : α → α} (hf : ∀ a, key (f a) = key a) (l : List α) :
    (sortBy key l).map f = sortBy key (l.map f) := by
  unfold sortBy
  apply List.map_insertionSort
  intro a _ b _
  rw [hf, hf]

/-- A narrower filter gives the same sorted list only if it drops nothing more. -/
theorem sortBy_filter_eq_iff {p q : α → Bool} {l : List α} (hpq : ∀ a ∈ l, p a = true → q a = true) :
    sortBy key (l.filter p) = sortBy key (l.filter q) ↔ ∀ a ∈ l, q a = true → p a = true := by
  constructor
  · intro h a ha hq
    have hmem : a ∈ sortBy key (l.filter q) :=
      (mem_sortBy key).mpr (List.mem_filter.mpr ⟨ha, hq⟩)
    rw [← h, mem_sortBy key] at hmem
    exact (List.mem_filter.mp hmem).2
  · intro h
    have hfilter : l.filter p = l.filter q := by
      apply List.filter_congr
      intro a ha
      exact Bool.eq_iff_iff.mpr ⟨hpq a ha, h a ha⟩
    rw [hfilter]

end PracticeApps.StableSort
