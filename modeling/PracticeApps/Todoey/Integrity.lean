import PracticeApps.Library.Ownership
import PracticeApps.Todoey.Realm

/-!
# Items and their categories

Realm does not know that an item belongs to a category: the lists of the
categories own the items only because an item is stored by being appended to a
list, and because a category's items are deleted before the category. `Consistent`
is what this convention comes to, and each operation on the store keeps it.
-/

namespace PracticeApps.Todoey
open ObjectTable Ownership

variable {Date : Type} {store : Store Date}

def Store.lists (store : Store Date) : List (List ObjectId) :=
  store.categories.rows.map fun p => p.2.items

def Consistent (store : Store Date) : Prop := Owned store.lists store.items.ids

/-- Each item stored occurs once in the list of one category and in no other list, and
each entry of a list is an item stored. -/
structure Integrity (store : Store Date) : Prop where
  owned : ∀ i ∈ store.items.ids, ∃ l c r, store.categories.rows = l ++ c :: r ∧
    c.2.items.count i = 1 ∧ ∀ other ∈ l ++ r, i ∉ other.2.items
  managed : ∀ c ∈ store.categories.rows, ∀ i ∈ c.2.items, i ∈ store.items.ids

theorem lists_split {l r : List (ObjectId × Category)} {c : ObjectId × Category}
    (hrows : store.categories.rows = l ++ c :: r) :
    store.lists = l.map (fun p => p.2.items) ++ c.2.items :: r.map fun p => p.2.items := by
  unfold Store.lists
  rw [hrows, List.map_append, List.map_cons]

/- The entries of one category are in no other category. -/
theorem notMem_other {l r : List (ObjectId × Category)} {c : ObjectId × Category} {i : ObjectId}
    (h : Consistent store) (hrows : store.categories.rows = l ++ c :: r) (hi : i ∈ c.2.items) :
    ∀ other ∈ l ++ r, i ∉ other.2.items := by
  unfold Consistent at h
  rw [lists_split hrows] at h
  intro other hother
  apply h.notMem_others store.items.nodup_ids hi
  rw [← List.map_append]
  exact List.mem_map.mpr ⟨other, hother, rfl⟩

theorem Consistent.integrity (h : Consistent store) : Integrity store := by
  refine ⟨?_, ?_⟩
  · intro i hi
    obtain ⟨items, hitems, hmem⟩ := h.mem_iff.mp hi
    have hnodup := h.nodup store.items.nodup_ids hitems
    obtain ⟨c, hc, rfl⟩ := List.mem_map.mp hitems
    obtain ⟨l, r, hrows⟩ := List.append_of_mem hc
    exact ⟨l, c, r, hrows, List.count_eq_one_of_mem hnodup hmem, notMem_other h hrows hmem⟩
  · intro c hc i hi
    exact h.mem_iff.mpr ⟨c.2.items, List.mem_map.mpr ⟨c, hc, rfl⟩, hi⟩

/-! ### Adding -/

theorem empty_consistent : Consistent (⟨Table.empty, Table.empty⟩ : Store Date) := owned_nil

theorem addCategory_consistent {category : Category} (h : Consistent store)
    (hnew : category.items = []) : Consistent (store.addCategory category) := by
  have hlists : (store.addCategory category).lists = store.lists ++ [[]] := by
    unfold Store.lists Store.addCategory Table.add
    rw [List.map_append, List.map_singleton, hnew]
  unfold Consistent
  rw [hlists]
  exact h.concat_empty

theorem appendItem_consistent {category : ObjectId} (newItem : Item Date) (h : Consistent store)
    (hc : category ∈ store.categories.ids) : Consistent (store.appendItem category newItem) := by
  obtain ⟨c, hc⟩ := store.categories.mem_ids_iff.mp hc
  obtain ⟨l, r, hrows, hothers⟩ := store.categories.rows_split hc
  have hrows' : (store.appendItem category newItem).categories.rows =
      l ++ (category, { c with items := c.items ++ [store.items.nextId] }) :: r := by
    have hmodify := Table.modify_rows_at (f := fun i c =>
        if i = category then { c with items := c.items ++ [store.items.nextId] } else c) hrows
      (fun p hp => by rw [if_neg (hothers p hp)])
    rw [if_pos rfl] at hmodify
    exact hmodify
  have hids : (store.appendItem category newItem).items.ids =
      store.items.ids ++ [store.items.nextId] := Table.ids_add _ _
  unfold Consistent at h ⊢
  rw [lists_split hrows] at h
  rw [lists_split hrows', hids]
  exact h.append_new _

/-! ### Deleting -/

theorem deleteItem_consistent (h : Consistent store) (item : ObjectId) :
    Consistent (store.deleteItem item) := by
  have hlists : (store.deleteItem item).lists = store.lists.map (List.filter (· ≠ item)) := by
    unfold Store.lists Store.deleteItem Table.modify
    rw [List.map_map, List.map_map]
    rfl
  have hids : (store.deleteItem item).items.ids = store.items.ids.filter (· ≠ item) := by
    unfold Store.deleteItem
    rw [Table.ids_remove, List.Nodup.erase_eq_filter store.items.nodup_ids]
    exact List.filter_congr (fun i _ => Bool.eq_iff_iff.mpr (by simp))
  unfold Consistent
  rw [hlists, hids]
  exact h.filter _

theorem deleteItems_consistent (h : Consistent store) (items : List ObjectId) :
    Consistent (store.deleteItems items) := by
  unfold Store.deleteItems
  induction items generalizing store with
  | nil => exact h
  | cons item items ih => exact ih (deleteItem_consistent h item)

theorem deleteItems_find (store : Store Date) (items : List ObjectId) (i : ObjectId) :
    (store.deleteItems items).items.find i = if i ∈ items then none else store.items.find i := by
  unfold Store.deleteItems
  induction items generalizing store with
  | nil => simp
  | cons item items ih =>
    rw [List.foldl_cons, ih]
    unfold Store.deleteItem
    rw [Table.find_remove]
    by_cases hi : i = item <;> simp [hi]

theorem deleteItems_categories (store : Store Date) (items : List ObjectId) :
    (store.deleteItems items).categories.rows = store.categories.rows.map fun p =>
      (p.1, { p.2 with items := p.2.items.filter (· ∉ items) }) := by
  unfold Store.deleteItems
  induction items generalizing store with
  | nil => simp
  | cons item items ih =>
    rw [List.foldl_cons, ih]
    unfold Store.deleteItem Table.modify
    dsimp only
    rw [List.map_map]
    refine List.map_congr_left (fun p _ => ?_)
    simp only [Function.comp_apply, List.filter_filter]
    refine congrArg (fun l => (p.1, { p.2 with items := l })) (List.filter_congr ?_)
    intro i _
    simp [Bool.and_comm]

/-- What is left of a deletion: the category and its items are gone, and the other
categories and their items are as they were. -/
structure DeletesOnly (category : ObjectId × Category) (s r : Store Date) : Prop where
  categories : r.categories.rows = s.categories.rows.filter fun p => p.1 ≠ category.1
  gone : ∀ i ∈ category.2.items, i ∉ r.items.ids
  kept : ∀ c ∈ r.categories.rows, ∀ i ∈ c.2.items, r.items.find i = s.items.find i

theorem deleteCategory_rows {category : ObjectId × Category} (h : Consistent store)
    (hc : category ∈ store.categories.rows) :
    ∃ l r, store.categories.rows = l ++ category :: r ∧
      (store.deleteItems category.2.items).categories.rows =
        l ++ (category.1, { category.2 with items := [] }) :: r ∧
      ((store.deleteItems category.2.items).deleteCategory category.1).categories.rows = l ++ r ∧
      l ++ r = store.categories.rows.filter fun p => p.1 ≠ category.1 := by
  obtain ⟨l, r, hrows, hothers⟩ := store.categories.rows_split hc
  have hkeep : ∀ m : List (ObjectId × Category), (∀ p ∈ m, p ∈ l ++ r) →
      m.map (fun p => (p.1, { p.2 with items := p.2.items.filter (· ∉ category.2.items) })) = m := by
    intro m hm
    rw [List.map_congr_left (g := id), List.map_id]
    intro p hp
    have hdisjoint : p.2.items.filter (· ∉ category.2.items) = p.2.items := by
      refine List.filter_eq_self.mpr (fun i hi => decide_eq_true ?_)
      intro hmem
      exact notMem_other h hrows hmem p (hm p hp) hi
    rw [hdisjoint]
    rfl
  have hown : category.2.items.filter (· ∉ category.2.items) = [] := by
    refine List.filter_eq_nil_iff.mpr (fun i hi => ?_)
    simpa using hi
  have hemptied : (store.deleteItems category.2.items).categories.rows =
      l ++ (category.1, { category.2 with items := [] }) :: r := by
    rw [deleteItems_categories, hrows, List.map_append, List.map_cons,
      hkeep l (fun p hp => by simp [hp]), hkeep r (fun p hp => by simp [hp]), hown]
  refine ⟨l, r, hrows, hemptied, Table.remove_rows_at hemptied hothers, ?_⟩
  rw [hrows, List.filter_append, List.filter_cons_of_neg (by simp), ← List.filter_append]
  exact (List.filter_eq_self.mpr (fun p hp => by simpa using hothers p hp)).symm

theorem deleteCategory_consistent {category : ObjectId × Category} (h : Consistent store)
    (hc : category ∈ store.categories.rows) :
    Consistent ((store.deleteItems category.2.items).deleteCategory category.1) := by
  obtain ⟨l, r, _, hemptied, hdeleted, _⟩ := deleteCategory_rows h hc
  have hitems := deleteItems_consistent h category.2.items
  unfold Consistent at hitems ⊢
  rw [lists_split hemptied] at hitems
  unfold Store.lists
  rw [hdeleted, List.map_append]
  exact hitems.drop_empty

theorem deleteCategory_deletesOnly {category : ObjectId × Category} (h : Consistent store)
    (hc : category ∈ store.categories.rows) :
    DeletesOnly category store
      ((store.deleteItems category.2.items).deleteCategory category.1) := by
  obtain ⟨l, r, hrows, _, hdeleted, hfilter⟩ := deleteCategory_rows h hc
  refine ⟨hdeleted.trans hfilter, ?_, ?_⟩
  · intro i hi hmem
    obtain ⟨item, hitem⟩ := Table.mem_ids_iff _ |>.mp hmem
    have hfind := (Table.find_eq_some_iff _).mpr hitem
    have hnone := deleteItems_find store category.2.items i
    rw [if_pos hi] at hnone
    exact absurd (hnone.symm.trans hfind) (by simp)
  · intro c hcr i hi
    rw [hdeleted] at hcr
    show (store.deleteItems category.2.items).items.find i = _
    rw [deleteItems_find, if_neg]
    intro hmem
    exact notMem_other h hrows hmem c hcr hi

/-! ### Toggling -/

/-- Only the one item changes, and of it only `isDone`. -/
structure TogglesOnly (item : ObjectId) (s r : Store Date) : Prop where
  categories : r.categories = s.categories
  items : r.items.ids = s.items.ids
  toggled : ∀ i, r.items.find i = (s.items.find i).map fun p =>
    if i = item then { p with isDone := !p.isDone } else p

theorem toggleDone_togglesOnly (store : Store Date) (item : ObjectId) :
    TogglesOnly item store (store.toggleDone item) :=
  ⟨rfl, Table.ids_modify _ _, fun i => Table.find_modify _ _ i⟩

theorem toggleDone_consistent (h : Consistent store) (item : ObjectId) :
    Consistent (store.toggleDone item) := by
  have htoggled := toggleDone_togglesOnly store item
  unfold Consistent Store.lists at h ⊢
  rw [htoggled.categories, htoggled.items]
  exact h

end PracticeApps.Todoey
