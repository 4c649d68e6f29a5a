import Mathlib.Data.List.Nodup

/-!
# Tables of objects under fresh ids

A table never holds two rows of one id, and the next id is above all of them.
-/

namespace PracticeApps.ObjectTable

variable {α : Type}

structure Table (α : Type) where
  rows : List (ℕ × α)
  nextId : ℕ
  nodup : (rows.map Prod.fst).Nodup
  fresh : ∀ i ∈ rows.map Prod.fst, i < nextId
  deriving DecidableEq

namespace Table

def ids (t : Table α) : List ℕ := t.rows.map Prod.fst

def empty : Table α := ⟨[], 0, List.nodup_nil, by simp⟩

def find (t : Table α) (i : ℕ) : Option α := t.rows.lookup i

theorem nextId_notMem (t : Table α) : t.nextId ∉ t.rows.map Prod.fst := by
  intro h
  have hlt := t.fresh _ h
  omega

def add (t : Table α) (a : α) : Table α where
  rows := t.rows ++ [(t.nextId, a)]
  nextId := t.nextId + 1
  nodup := by
    rw [List.map_append]
    apply List.Nodup.append t.nodup (List.nodup_singleton _)
    intro i hi hs
    have hs : i = t.nextId := List.mem_singleton.mp hs
    rw [hs] at hi
    exact t.nextId_notMem hi
  fresh := by
    intro i hi
    rw [List.map_append, List.mem_append] at hi
    rcases hi with hi | hi
    · have hlt := t.fresh i hi
      omega
    · rw [List.map_cons, List.map_nil, List.mem_singleton] at hi
      omega

def remove (t : Table α) (i : ℕ) : Table α where
  rows := t.rows.filter fun p => p.1 ≠ i
  nextId := t.nextId
  nodup := t.nodup.sublist (List.filter_sublist.map Prod.fst)
  fresh := fun j hj => t.fresh j ((List.filter_sublist.map Prod.fst).subset hj)

def modify (t : Table α) (f : ℕ → α → α) : Table α where
  rows := t.rows.map fun p => (p.1, f p.1 p.2)
  nextId := t.nextId
  nodup := by
    rw [List.map_map]
    exact t.nodup
  fresh := by
    intro i hi
    rw [List.map_map] at hi
    exact t.fresh i hi

/-! ### How many rows there are -/

def count (t : Table α) : ℕ := t.rows.length

@[simp] theorem count_add (t : Table α) (a : α) : (t.add a).count = t.count + 1 :=
  List.length_append

theorem length_ids (t : Table α) : t.ids.length = t.count := List.length_map _

@[simp] theorem ids_modify (t : Table α) (f : ℕ → α → α) : (t.modify f).ids = t.ids := by
  unfold ids modify
  rw [List.map_map]
  rfl

theorem ids_add (t : Table α) (a : α) : (t.add a).ids = t.ids ++ [t.nextId] := by
  unfold ids add
  rw [List.map_append]
  rfl

theorem ids_remove (t : Table α) (i : ℕ) : (t.remove i).ids = t.ids.erase i := by
  unfold ids remove
  rw [List.Nodup.erase_eq_filter t.nodup, List.filter_map]
  congr 1
  apply List.filter_congr
  intro p _
  by_cases hp : p.1 = i <;> simp [hp]

theorem count_remove (t : Table α) {i : ℕ} (h : i ∈ t.ids) : (t.remove i).count + 1 = t.count := by
  rw [← length_ids, ← length_ids, ids_remove, List.length_erase_add_one h]

/-! ### A row among the others -/

theorem nodup_ids (t : Table α) : t.ids.Nodup := t.nodup

theorem find_eq_some_iff (t : Table α) {i : ℕ} {a : α} : t.find i = some a ↔ (i, a) ∈ t.rows := by
  unfold find
  rw [List.lookup_eq_some_iff]
  constructor
  · intro h
    obtain ⟨l, r, hrows, _⟩ := h
    rw [hrows]
    simp
  · intro h
    obtain ⟨l, r, hrows⟩ := List.append_of_mem h
    refine ⟨l, r, hrows, ?_⟩
    intro p hp
    have hnodup := t.nodup
    rw [hrows, List.map_append, List.map_cons] at hnodup
    have hnot : i ∉ l.map Prod.fst := by
      intro hi
      exact List.disjoint_of_nodup_append hnodup hi List.mem_cons_self
    rw [bne_iff_ne]
    intro hip
    exact hnot (List.mem_map.mpr ⟨p, hp, hip.symm⟩)

theorem mem_ids_iff (t : Table α) {i : ℕ} : i ∈ t.ids ↔ ∃ a, (i, a) ∈ t.rows := by
  unfold ids
  simp

/-- A row stands between rows of other ids. -/
theorem rows_split (t : Table α) {i : ℕ} {a : α} (h : (i, a) ∈ t.rows) :
    ∃ l r, t.rows = l ++ (i, a) :: r ∧ ∀ p ∈ l ++ r, p.1 ≠ i := by
  obtain ⟨l, r, hrows⟩ := List.append_of_mem h
  refine ⟨l, r, hrows, ?_⟩
  have hnodup := t.nodup
  rw [hrows, List.map_append, List.map_cons, List.nodup_middle, List.nodup_cons,
    ← List.map_append] at hnodup
  intro p hp hpi
  exact hnodup.1 (List.mem_map.mpr ⟨p, hp, hpi⟩)

theorem modify_rows_at {t : Table α} {f : ℕ → α → α} {l r : List (ℕ × α)} {i : ℕ} {a : α}
    (hrows : t.rows = l ++ (i, a) :: r) (hothers : ∀ p ∈ l ++ r, f p.1 p.2 = p.2) :
    (t.modify f).rows = l ++ (i, f i a) :: r := by
  have hsame : ∀ m : List (ℕ × α), (∀ p ∈ m, f p.1 p.2 = p.2) →
      m.map (fun p => (p.1, f p.1 p.2)) = m := by
    intro m hm
    rw [List.map_congr_left (g := id) (fun p hp => by rw [hm p hp]; rfl), List.map_id]
  unfold modify
  dsimp only
  rw [hrows, List.map_append, List.map_cons, hsame l (fun p hp => hothers p (by simp [hp])),
    hsame r (fun p hp => hothers p (by simp [hp]))]

theorem remove_rows_at {t : Table α} {l r : List (ℕ × α)} {i : ℕ} {a : α}
    (hrows : t.rows = l ++ (i, a) :: r) (hothers : ∀ p ∈ l ++ r, p.1 ≠ i) :
    (t.remove i).rows = l ++ r := by
  unfold remove
  dsimp only
  rw [hrows, List.filter_append, List.filter_cons_of_neg (by simp), ← List.filter_append]
  exact List.filter_eq_self.mpr (fun p hp => by simpa using hothers p hp)

@[simp] theorem find_modify (t : Table α) (f : ℕ → α → α) (i : ℕ) :
    (t.modify f).find i = (t.find i).map (f i) := by
  unfold find modify
  dsimp only
  induction t.rows with
  | nil => rfl
  | cons p rows ih =>
    rw [List.map_cons, List.lookup_cons, List.lookup_cons]
    cases hi : i == p.1 with
    | true =>
      rw [beq_iff_eq] at hi
      rw [hi]
      rfl
    | false => exact ih

@[simp] theorem find_remove (t : Table α) (k i : ℕ) :
    (t.remove k).find i = if i = k then none else t.find i := by
  apply Option.ext
  intro a
  rw [find_eq_some_iff]
  unfold remove
  by_cases hi : i = k
  · simp [hi]
  · rw [if_neg hi, find_eq_some_iff]
    simp [hi]

end Table

end PracticeApps.ObjectTable
