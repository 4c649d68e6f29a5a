import Mathlib.Data.List.Perm.Basic
import Mathlib.Data.List.Nodup
import Mathlib.Data.List.Flatten

/-!
# Objects owned by lists

Several lists share a collection of objects: each object is in exactly one of the
lists, exactly once, and the lists hold nothing else. The rules below say what
keeps this: a new object at the end of one list, objects taken out of every
list, and a list that comes or goes empty.
-/

namespace PracticeApps.Ownership

variable {α : Type} {lists l r : List (List α)} {objects x : List α} {a : α}

def Owned (lists : List (List α)) (objects : List α) : Prop := lists.flatten.Perm objects

theorem owned_nil : Owned ([] : List (List α)) [] := List.Perm.refl _

theorem Owned.concat_empty (h : Owned lists objects) : Owned (lists ++ [[]]) objects := by
  unfold Owned
  rw [List.flatten_append, List.flatten_singleton, List.append_nil]
  exact h

theorem Owned.drop_empty (h : Owned (l ++ [] :: r) objects) : Owned (l ++ r) objects := by
  unfold Owned at h ⊢
  rw [List.flatten_append, List.flatten_cons, List.nil_append] at h
  rw [List.flatten_append]
  exact h

theorem Owned.append_new (h : Owned (l ++ x :: r) objects) (a : α) :
    Owned (l ++ (x ++ [a]) :: r) (objects ++ [a]) := by
  unfold Owned at h ⊢
  have hmove : (l ++ (x ++ [a]) :: r).flatten.Perm ((l ++ x :: r).flatten ++ [a]) := by
    simp only [List.flatten_append, List.flatten_cons, List.append_assoc]
    exact ((List.perm_append_comm).append_left x).append_left l.flatten
  exact hmove.trans (h.append_right [a])

theorem Owned.filter (h : Owned lists objects) (p : α → Bool) :
    Owned (lists.map (List.filter p)) (objects.filter p) := by
  unfold Owned at h ⊢
  rw [← List.filter_flatten]
  exact h.filter p

theorem Owned.mem_iff (h : Owned lists objects) : a ∈ objects ↔ ∃ x ∈ lists, a ∈ x := by
  have hperm : lists.flatten.Perm objects := h
  rw [← hperm.mem_iff, List.mem_flatten]

theorem Owned.nodup (h : Owned lists objects) (hn : objects.Nodup) (hx : x ∈ lists) : x.Nodup :=
  (List.nodup_flatten.mp (h.nodup_iff.mpr hn)).1 x hx

/-- An object of one list is in none of the others. -/
theorem Owned.notMem_others (h : Owned (l ++ x :: r) objects) (hn : objects.Nodup) (ha : a ∈ x) :
    ∀ y ∈ l ++ r, a ∉ y := by
  intro y hy hay
  have hmove : ((l ++ x :: r).flatten).Perm (x ++ (l ++ r).flatten) := by
    rw [List.flatten_append, List.flatten_cons, List.flatten_append]
    exact List.perm_append_comm_assoc _ _ _
  have hnodup : (x ++ (l ++ r).flatten).Nodup := (hmove.symm.trans h).nodup_iff.mpr hn
  exact List.disjoint_of_nodup_append hnodup ha (List.mem_flatten.mpr ⟨y, hy, hay⟩)

end PracticeApps.Ownership
