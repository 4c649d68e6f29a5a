import PracticeApps.Todoey.Integrity
import PracticeApps.Todoey.TodoListViewController

/-!
# The item table and the store

Whatever becomes of a transaction, the items keep their categories. While the
transactions commit, the table is in step with the results shown, so that no
batch is refused and no row is past their end.
-/

namespace PracticeApps.Todoey.TodoList
open EventMachine ObjectTable StableSort TableView

variable {Date : Type} [LinearOrder Date] {contains : String → String → Bool}

/- Only a row that is shown can be tapped or swiped. -/
def Delivered (s : TodoListViewController Date) : Event Date → Prop
  | .didSelectRow row _ => row < s.rows
  | .delete row _ => row < s.rows
  | _ => True

def Committed : Event Date → Prop
  | .addItem _ _ outcome => outcome = .committed
  | .didSelectRow _ outcome => outcome = .committed
  | .delete _ outcome => outcome = .committed
  | _ => True

omit [LinearOrder Date] in
instance (s : TodoListViewController Date) (e : Event Date) : Decidable (Delivered s e) := by
  cases e <;> unfold Delivered <;> infer_instance

omit [LinearOrder Date] in
instance (e : Event Date) : Decidable (Committed e) := by
  cases e <;> unfold Committed <;> infer_instance

def InStep (contains : String → String → Bool) (s : TodoListViewController Date) : Prop :=
  s.rows = numberOfRowsInSection contains s

/- The category of the screen is stored, or there is none. -/
def SelectedStored (s : TodoListViewController Date) : Prop :=
  ∀ c, s.selectedCategory = some c → c ∈ s.realm.categories.ids

/-! ### What an operation does to the rows shown -/

omit [LinearOrder Date] in
theorem filterMap_find_remove (items : Table (Item Date)) (item : ObjectId) (l : List ObjectId) :
    (l.filter (· ≠ item)).filterMap (fun i => ((items.remove item).find i).map fun p => (i, p)) =
      (l.filterMap fun i => (items.find i).map fun p => (i, p)).filter fun p => p.1 ≠ item := by
  induction l with
  | nil => rfl
  | cons i l ih =>
    by_cases hi : i = item
    · rw [List.filter_cons_of_neg (by simp [hi]), ih, List.filterMap_cons]
      cases hfind : items.find i with
      | none => rfl
      | some p => simp [hi]
    · rw [List.filter_cons_of_pos (by simp [hi]), List.filterMap_cons, List.filterMap_cons, ih,
        Table.find_remove, if_neg hi]
      cases hfind : items.find i with
      | none => rfl
      | some p => simp [hi]

omit [LinearOrder Date] in
theorem itemsOf_deleteItem (store : Store Date) (item category : ObjectId) :
    (store.deleteItem item).itemsOf category =
      (store.itemsOf category).filter fun p => p.1 ≠ item := by
  unfold Store.itemsOf Store.deleteItem
  rw [Table.find_modify]
  cases hc : store.categories.find category with
  | none => rfl
  | some c => exact filterMap_find_remove store.items item c.items

theorem eval_deleteItem (store : Store Date) (item : ObjectId) (results : Results) :
    results.eval contains (store.deleteItem item) =
      (results.eval contains store).filter fun p => p.1 ≠ item := by
  induction results with
  | list category => exact itemsOf_deleteItem store item category
  | filter base query ih =>
    simp only [Results.eval]
    rw [ih, List.filter_filter, List.filter_filter]
    exact List.filter_congr (fun p _ => Bool.and_comm _ _)
  | sortedByDateCreated base ih =>
    simp only [Results.eval]
    rw [ih, filter_sortBy]

def toggleAt (item : ObjectId) (p : ObjectId × Item Date) : ObjectId × Item Date :=
  (p.1, if p.1 = item then { p.2 with isDone := !p.2.isDone } else p.2)

omit [LinearOrder Date] in
theorem toggleAt_title (item : ObjectId) (p : ObjectId × Item Date) :
    (toggleAt item p).2.title = p.2.title := by
  unfold toggleAt
  split <;> rfl

omit [LinearOrder Date] in
theorem toggleAt_dateCreated (item : ObjectId) (p : ObjectId × Item Date) :
    (toggleAt item p).2.dateCreated = p.2.dateCreated := by
  unfold toggleAt
  split <;> rfl

omit [LinearOrder Date] in
theorem itemsOf_toggleDone (store : Store Date) (item category : ObjectId) :
    (store.toggleDone item).itemsOf category = (store.itemsOf category).map (toggleAt item) := by
  unfold Store.itemsOf Store.toggleDone
  dsimp only
  cases hc : store.categories.find category with
  | none => rfl
  | some c =>
    dsimp only
    rw [List.map_filterMap]
    refine List.filterMap_congr (fun i _ => ?_)
    rw [Table.find_modify, Option.map_map, Option.map_map]
    rfl

/- Toggling changes neither the titles nor the dates, so the results stay in place. -/
theorem eval_toggleDone (store : Store Date) (item : ObjectId) (results : Results) :
    results.eval contains (store.toggleDone item) =
      (results.eval contains store).map (toggleAt item) := by
  induction results with
  | list category => exact itemsOf_toggleDone store item category
  | filter base query ih =>
    simp only [Results.eval]
    rw [ih, List.filter_map]
    refine congrArg (List.map _) (List.filter_congr (fun p _ => ?_))
    rw [Function.comp_apply, toggleAt_title]
  | sortedByDateCreated base ih =>
    simp only [Results.eval]
    rw [ih, map_sortBy _ (toggleAt_dateCreated item)]

omit [LinearOrder Date] in
theorem itemsOf_nodup {store : Store Date} (h : Consistent store) (category : ObjectId) :
    ((store.itemsOf category).map Prod.fst).Nodup := by
  unfold Store.itemsOf
  cases hc : store.categories.find category with
  | none => exact List.nodup_nil
  | some c =>
    have hmem : c.items ∈ store.lists :=
      List.mem_map.mpr ⟨(category, c), (Table.find_eq_some_iff _).mp hc, rfl⟩
    have hnodup := h.nodup store.items.nodup_ids hmem
    dsimp only
    rw [List.map_filterMap]
    have hfst : ∀ i j, j ∈ Option.map Prod.fst ((store.items.find i).map fun p => (i, p)) → i = j := by
      intro i j hj
      rw [Option.map_map, Option.mem_def, Option.map_eq_some_iff] at hj
      obtain ⟨_, _, hij⟩ := hj
      exact hij
    refine hnodup.filterMap ?_
    intro i i' j hi hi'
    rw [hfst i j hi, hfst i' j hi']

theorem eval_nodup (contains : String → String → Bool) {store : Store Date} (h : Consistent store)
    (results : Results) : ((results.eval contains store).map Prod.fst).Nodup := by
  induction results with
  | list category => exact itemsOf_nodup h category
  | filter base query ih => exact ih.sublist (List.filter_sublist.map Prod.fst)
  | sortedByDateCreated base ih =>
    simp only [Results.eval]
    exact ((perm_sortBy _ _).map Prod.fst).nodup_iff.mpr ih

/- A deleted row takes one row with it. -/
theorem length_deleteItem {store : Store Date} (h : Consistent store) {results : Results} {row : ℕ}
    {item : ObjectId × Item Date} (hrow : (results.eval contains store)[row]? = some item) :
    (results.eval contains (store.deleteItem item.1)).length + 1 =
      (results.eval contains store).length := by
  have hmem := List.mem_of_getElem? hrow
  have hnodup := eval_nodup contains h results
  have hids : (results.eval contains (store.deleteItem item.1)).map Prod.fst =
      ((results.eval contains store).map Prod.fst).erase item.1 := by
    rw [eval_deleteItem, hnodup.erase_eq_filter, List.filter_map]
    refine congrArg (List.map _) (List.filter_congr (fun p _ => ?_))
    exact Bool.eq_iff_iff.mpr (by simp)
  have hlength := congrArg List.length hids
  rw [List.length_map] at hlength
  rw [hlength, List.length_erase_add_one (List.mem_map_of_mem hmem), List.length_map]

/-! ### The items keep their categories -/

/- What every event keeps, whatever becomes of its transaction. -/
structure Kept (s r : TodoListViewController Date) : Prop where
  consistent : Consistent r.realm
  categories : r.realm.categories.ids = s.realm.categories.ids
  selected : r.selectedCategory = s.selectedCategory

omit [LinearOrder Date] in
theorem Kept.selectedStored {s r : TodoListViewController Date} (h : Kept s r)
    (hs : SelectedStored s) : SelectedStored r := by
  intro c hc
  rw [h.selected] at hc
  rw [h.categories]
  exact hs c hc

theorem updateRows_kept {deleted inserted : List ℤ} {s q r : TodoListViewController Date}
    (hq : Kept s q) (h : updateRows contains deleted inserted q = .ok r) : Kept s r := by
  unfold updateRows at h
  split at h
  · cases h
    exact ⟨hq.consistent, hq.categories, hq.selected⟩
  · cases h

omit [LinearOrder Date] in
theorem realmWrite_kept {outcome : WriteOutcome}
    {block : TodoListViewController Date → Except Trap (TodoListViewController Date)}
    {s : TodoListViewController Date} {r : TodoListViewController Date × Bool}
    (hs : Consistent s.realm) (hblock : ∀ q, block s = .ok q → Kept s q)
    (h : realmWrite outcome block s = .ok r) : Kept s r.1 :=
  write_inv (P := Kept s) ⟨hs, rfl, rfl⟩ hblock (fun _ hq => ⟨hs, rfl, hq.selected⟩) h

theorem addButtonPressed_kept {titleString : String} {now : Date} {outcome : WriteOutcome}
    {s r : TodoListViewController Date} (hs : Consistent s.realm) (hstored : SelectedStored s)
    (h : addButtonPressed contains titleString now outcome s = .ok r) : Kept s r := by
  unfold addButtonPressed at h
  split at h
  · cases h
    exact ⟨hs, rfl, rfl⟩
  · split at h
    · cases h
      exact ⟨hs, rfl, rfl⟩
    next c hc =>
      obtain ⟨b, hb⟩ := map_fst_ok h
      refine realmWrite_kept hs (fun q hq => ?_) hb
      cases hq
      exact ⟨appendItem_consistent _ hs (hstored c hc), Table.ids_modify _ _, rfl⟩

theorem didSelectRowAt_kept {row : ℕ} {outcome : WriteOutcome} {s r : TodoListViewController Date}
    (hs : Consistent s.realm) (h : didSelectRowAt contains row outcome s = .ok r) : Kept s r := by
  unfold didSelectRowAt at h
  split at h
  · cases h
  · cases h
    exact ⟨hs, rfl, rfl⟩
  next item _ =>
    have htoggled : ∀ q, realmWrite outcome
        (fun s => .ok { s with realm := s.realm.toggleDone item }) s = .ok q → Kept s q.1 := by
      intro q hq
      refine realmWrite_kept hs (fun p hp => ?_) hq
      cases hp
      exact ⟨toggleDone_consistent hs item, rfl, rfl⟩
    split at h
    · cases h
    next q hq => exact updateRows_kept (htoggled _ hq) h
    next q hq =>
      cases h
      exact htoggled _ hq

theorem commitDelete_kept {row : ℕ} {outcome : WriteOutcome} {s r : TodoListViewController Date}
    (hs : Consistent s.realm) (h : commitDelete contains row outcome s = .ok r) : Kept s r := by
  unfold commitDelete at h
  split at h
  · cases h
  · cases h
    exact ⟨hs, rfl, rfl⟩
  next item _ =>
    obtain ⟨b, hb⟩ := map_fst_ok h
    refine realmWrite_kept hs (fun q hq => ?_) hb
    refine updateRows_kept (q := { s with realm := s.realm.deleteItem item }) ?_ hq
    exact ⟨deleteItem_consistent hs item, Table.ids_modify _ _, rfl⟩

theorem handle_kept {s r : TodoListViewController Date} {e : Event Date} (hs : Consistent s.realm)
    (hstored : SelectedStored s) (h : handle contains s e = .ok r) : Kept s r := by
  cases e with
  | addItem titleString now outcome => exact addButtonPressed_kept hs hstored h
  | didSelectRow row outcome => exact didSelectRowAt_kept hs h
  | delete row outcome => exact commitDelete_kept hs h
  | searchBarSearchButtonClicked =>
    cases h
    unfold searchBarSearchButtonClicked
    split <;> exact ⟨hs, rfl, rfl⟩
  | textDidChange searchText =>
    cases h
    unfold textDidChange
    dsimp only
    split <;> exact ⟨hs, rfl, rfl⟩

/-! ### The table in step -/

theorem updateRows_ok {deleted inserted : List ℤ} {s : TodoListViewController Date}
    (h : BatchRule s.rows (numberOfRowsInSection contains s) deleted inserted) :
    updateRows contains deleted inserted s =
      .ok { s with rows := numberOfRowsInSection contains s } := by
  unfold updateRows
  rw [batchUpdate_ok h]

/- A row that is shown has its item. -/
theorem itemAt_ok {s : TodoListViewController Date} {row : ℕ} (hs : InStep contains s)
    (hrow : row < s.rows) :
    ∃ results item, s.todoItems = some results ∧
      (results.eval contains s.realm)[row]? = some item ∧
      itemAt contains row s = .ok (some item.1) := by
  unfold InStep numberOfRowsInSection TodoListViewController.displayed at hs
  cases hresults : s.todoItems with
  | none =>
    rw [hresults] at hs
    rw [hs] at hrow
    exact absurd hrow (Nat.not_lt_zero row)
  | some results =>
    rw [hresults] at hs
    rw [hs] at hrow
    have hitem := List.getElem?_eq_getElem hrow
    refine ⟨results, _, rfl, hitem, ?_⟩
    unfold itemAt
    rw [hresults]
    simp only [hitem]

theorem numberOfRows_toggleDone (s : TodoListViewController Date) (item : ObjectId) :
    numberOfRowsInSection contains { s with realm := s.realm.toggleDone item } =
      numberOfRowsInSection contains s := by
  unfold numberOfRowsInSection TodoListViewController.displayed
  dsimp only
  cases s.todoItems with
  | none => rfl
  | some results =>
    dsimp only
    rw [eval_toggleDone, List.length_map]

theorem didSelectRowAt_committed {s : TodoListViewController Date} {row : ℕ} {results : Results}
    {item : ObjectId × Item Date} (hs : InStep contains s) (hresults : s.todoItems = some results)
    (hrow : (results.eval contains s.realm)[row]? = some item) :
    didSelectRowAt contains row .committed s =
      .ok { s with realm := s.realm.toggleDone item.1 } := by
  let q : TodoListViewController Date := { s with realm := s.realm.toggleDone item.1 }
  have hitem : itemAt contains row s = .ok (some item.1) := by
    unfold itemAt
    rw [hresults]
    simp only [hrow]
  have hwrite : realmWrite .committed
      (fun s => .ok { s with realm := s.realm.toggleDone item.1 }) s = .ok (q, true) := rfl
  have hsame : numberOfRowsInSection contains q = s.rows := by
    rw [hs]
    exact numberOfRows_toggleDone s item.1
  have hlt : row < s.rows := by
    rw [hs]
    unfold numberOfRowsInSection TodoListViewController.displayed
    rw [hresults]
    exact (List.getElem?_eq_some_iff.mp hrow).1
  have hrule : BatchRule q.rows (numberOfRowsInSection contains q) [(row : ℤ)] [(row : ℤ)] := by
    rw [hsame]
    unfold BatchRule InRange
    simp only [List.mem_singleton, forall_eq]
    show (0 ≤ (row : ℤ) ∧ (row : ℤ) < (s.rows : ℤ)) ∧ _ ∧ s.rows + 1 = s.rows + 1
    omega
  unfold didSelectRowAt
  rw [hitem]
  simp only [hwrite]
  rw [updateRows_ok hrule, hsame]

theorem commitDelete_committed {s : TodoListViewController Date} {row : ℕ} (hs : InStep contains s)
    (hconsistent : Consistent s.realm) (hrow : row < s.rows) :
    ∃ r, commitDelete contains row .committed s = .ok r ∧ InStep contains r := by
  obtain ⟨results, item, hresults, hget, hitem⟩ := itemAt_ok hs hrow
  let q : TodoListViewController Date := { s with realm := s.realm.deleteItem item.1 }
  have hcount : numberOfRowsInSection contains q + 1 = s.rows := by
    rw [hs]
    unfold numberOfRowsInSection TodoListViewController.displayed
    rw [hresults]
    exact length_deleteItem hconsistent hget
  have hrule : BatchRule q.rows (numberOfRowsInSection contains q) [(row : ℤ)] [] := by
    refine ⟨?_, by simp, hcount⟩
    intro r hr
    have hr : r = (row : ℤ) := List.mem_singleton.mp hr
    show 0 ≤ r ∧ r < (s.rows : ℤ)
    omega
  have hupdate := updateRows_ok hrule
  refine ⟨{ q with rows := numberOfRowsInSection contains q }, ?_, rfl⟩
  unfold commitDelete
  rw [hitem]
  simp only [realmWrite, write]
  rw [hupdate]
  rfl

/- While transactions commit, no event traps and the table stays in step. -/
theorem handle_committed {s : TodoListViewController Date} {e : Event Date}
    (hs : InStep contains s) (hconsistent : Consistent s.realm) (he : Delivered s e)
    (hcommitted : Committed e) : ∃ r, handle contains s e = .ok r ∧ InStep contains r := by
  cases e with
  | addItem titleString now outcome =>
    cases hcommitted
    show ∃ r, addButtonPressed contains titleString now .committed s = .ok r ∧ _
    unfold addButtonPressed
    split
    · exact ⟨s, rfl, hs⟩
    · split
      · exact ⟨s, rfl, hs⟩
      · exact ⟨_, rfl, rfl⟩
  | didSelectRow row outcome =>
    cases hcommitted
    obtain ⟨results, item, hresults, hget, _⟩ := itemAt_ok hs he
    refine ⟨_, didSelectRowAt_committed hs hresults hget, ?_⟩
    exact Eq.trans hs (numberOfRows_toggleDone s item.1).symm
  | delete row outcome =>
    cases hcommitted
    exact commitDelete_committed hs hconsistent he
  | searchBarSearchButtonClicked =>
    refine ⟨_, rfl, ?_⟩
    unfold searchBarSearchButtonClicked
    split
    · exact hs
    · rfl
  | textDidChange searchText =>
    refine ⟨_, rfl, ?_⟩
    unfold textDidChange
    dsimp only
    split
    · rfl
    · exact hs

end PracticeApps.Todoey.TodoList
