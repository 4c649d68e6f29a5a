import PracticeApps.Todoey.CategoryViewController

/-!
# The category table and the store

A committed transaction moves the store and the table by one row each. A failed
one leaves the store alone, but an added row is inserted all the same, and a
deleted row is already gone when the commit fails.
-/

namespace PracticeApps.Todoey.Categories
open EventMachine ObjectTable TableView

variable {Date : Type}

def InStep (s : CategoryViewController Date) : Prop := s.rows = numberOfRowsInSection s

/- No batch was refused, and the rows shown are the categories there are. -/
def InStepAfter : Except Trap (CategoryViewController Date) → Prop
  | .ok s => InStep s
  | .error _ => False

/- Only a row that is shown can be swiped. -/
def Delivered (s : CategoryViewController Date) : Event → Prop
  | .addCategory _ _ _ => True
  | .delete row _ => row < s.rows

instance (s : CategoryViewController Date) (e : Event) : Decidable (Delivered s e) := by
  cases e <;> unfold Delivered <;> infer_instance

/- The transaction of an added category commits; that of a deleted one does not
fail in its commit. -/
def WriteShown : Event → Prop
  | .addCategory titleString _ outcome => titleString = "" ∨ outcome = .committed
  | .delete _ outcome => outcome ≠ .commitThrows

instance (e : Event) : Decidable (WriteShown e) := by
  cases e <;> unfold WriteShown <;> infer_instance

/-! ### One batch of updates -/

theorem updateRows_inStep_iff (deleted inserted : List ℤ) (s : CategoryViewController Date) :
    InStepAfter (updateRows deleted inserted s) ↔
      BatchRule s.rows (numberOfRowsInSection s) deleted inserted := by
  unfold updateRows
  by_cases h : BatchRule s.rows (numberOfRowsInSection s) deleted inserted
  · rw [batchUpdate_ok h]
    exact iff_of_true rfl h
  · obtain ⟨e, he⟩ := batchUpdate_error h
    rw [he]
    exact iff_of_false id h

theorem updateRows_ok {deleted inserted : List ℤ} {s : CategoryViewController Date}
    (h : BatchRule s.rows (numberOfRowsInSection s) deleted inserted) :
    updateRows deleted inserted s = .ok { s with rows := numberOfRowsInSection s } := by
  unfold updateRows
  rw [batchUpdate_ok h]

theorem loaded_rows {s : CategoryViewController Date} (hc : s.categories = some .objects) :
    numberOfRowsInSection s = s.realm.categories.count := by
  unfold numberOfRowsInSection
  rw [hc]
  rfl

/-! ### Adding -/

/- The last row is inserted whatever became of the transaction. -/
theorem addNewCategory_of_save {category : Category} {outcome : WriteOutcome}
    {s r : CategoryViewController Date} (hsave : saveCategory category outcome s = .ok r)
    (hc : r.categories = some .objects) :
    addNewCategory category outcome s =
      updateRows [] [(numberOfRowsInSection r : ℤ) - 1] r := by
  unfold addNewCategory numberOfRowsInSection
  rw [hsave]
  dsimp only
  rw [hc]

/- Inserting the last row is right if there is one more than the table shows. -/
theorem insertLast_rule (before after : ℕ) :
    BatchRule before after [] [(after : ℤ) - 1] ↔ after = before + 1 := by
  unfold BatchRule InRange
  simp only [List.not_mem_nil, false_implies, implies_true, true_and, List.mem_singleton,
    forall_eq, List.length_nil, List.length_singleton]
  omega

theorem addNewCategory_iff {category : Category} {outcome : WriteOutcome}
    {s : CategoryViewController Date} (hc : s.categories = some .objects) (hs : InStep s) :
    InStepAfter (addNewCategory category outcome s) ↔ outcome = .committed := by
  have hrows : numberOfRowsInSection s = s.rows := hs.symm
  cases outcome with
  | committed =>
    let r : CategoryViewController Date := { s with realm := s.realm.addCategory category }
    have hsave : saveCategory category .committed s = .ok r := rfl
    have hcount : numberOfRowsInSection r = s.rows + 1 := by
      rw [loaded_rows (s := r) hc, ← hrows, loaded_rows hc]
      exact Table.count_add _ _
    rw [addNewCategory_of_save hsave hc, updateRows_inStep_iff, insertLast_rule]
    exact iff_of_true hcount rfl
  | beginThrows =>
    have hsave : saveCategory category .beginThrows s = .ok s := rfl
    rw [addNewCategory_of_save hsave hc, updateRows_inStep_iff, insertLast_rule, hrows]
    exact iff_of_false (by omega) (by simp)
  | commitThrows =>
    have hsave : saveCategory category .commitThrows s = .ok s := rfl
    rw [addNewCategory_of_save hsave hc, updateRows_inStep_iff, insertLast_rule, hrows]
    exact iff_of_false (by omega) (by simp)

/-! ### Deleting -/

/- Inside the transaction the row goes with the category. -/
theorem deleteBlock_ok {row : ℕ} {category : ObjectId × Category}
    {s : CategoryViewController Date} (hc : s.categories = some .objects) (hs : InStep s)
    (hrow : s.realm.categories.rows[row]? = some category) :
    ∃ r, deleteBlock row category s = .ok r ∧ InStep r ∧ r.rows + 1 = s.rows ∧
      r.categories = some .objects := by
  let q : CategoryViewController Date :=
    { s with realm := (s.realm.deleteItems category.2.items).deleteCategory category.1 }
  have hrows : s.rows = s.realm.categories.count := hs.trans (loaded_rows hc)
  have hmem : category.1 ∈ s.realm.categories.ids :=
    List.mem_map_of_mem (List.mem_of_getElem? hrow)
  have hids := deleteItems_ids s.realm category.2.items
  have hcount : numberOfRowsInSection q + 1 = s.rows := by
    rw [loaded_rows (s := q) hc, hrows, ← Table.length_ids s.realm.categories, ← hids,
      Table.length_ids]
    apply Table.count_remove
    rw [hids]
    exact hmem
  have hlt : row < s.rows := by
    rw [hrows]
    exact (List.getElem?_eq_some_iff.mp hrow).1
  have hrule : BatchRule q.rows (numberOfRowsInSection q) [(row : ℤ)] [] := by
    refine ⟨?_, by simp, hcount⟩
    intro r hr
    have hr : r = (row : ℤ) := List.mem_singleton.mp hr
    show 0 ≤ r ∧ r < (s.rows : ℤ)
    omega
  exact ⟨{ q with rows := numberOfRowsInSection q }, updateRows_ok hrule, rfl, hcount, hc⟩

theorem commitDelete_of_row {row : ℕ} {outcome : WriteOutcome} {category : ObjectId × Category}
    {s : CategoryViewController Date} (hc : s.categories = some .objects)
    (hrow : s.realm.categories.rows[row]? = some category) :
    commitDelete row outcome s = realmWrite outcome (deleteBlock row category) s := by
  unfold commitDelete
  rw [hc]
  simp only [Results.eval, hrow]

theorem commitDelete_iff {row : ℕ} {outcome : WriteOutcome} {s : CategoryViewController Date}
    (hc : s.categories = some .objects) (hs : InStep s) (hrow : row < s.rows) :
    InStepAfter (commitDelete row outcome s) ↔ outcome ≠ .commitThrows := by
  have hrows : s.rows = s.realm.categories.rows.length := hs.trans (loaded_rows hc)
  rw [hrows] at hrow
  have hget := List.getElem?_eq_getElem hrow
  rw [commitDelete_of_row hc hget]
  obtain ⟨r, hr, hstep, hcount, hrc⟩ := deleteBlock_ok hc hs hget
  unfold realmWrite write
  cases outcome with
  | committed =>
    rw [hr]
    exact iff_of_true hstep (by simp)
  | beginThrows => exact iff_of_true hs (by simp)
  | commitThrows =>
    -- the store has the category again, the table does not
    rw [hr]
    refine iff_of_false ?_ (by simp)
    intro h
    have hback : r.rows = s.realm.categories.count := h.trans (loaded_rows (s := { r with realm := s.realm }) hrc)
    have hrows : s.rows = s.realm.categories.count := hs.trans (loaded_rows hc)
    omega

/-! ### The results stay loaded -/

theorem updateRows_categories {deleted inserted : List ℤ} {s r : CategoryViewController Date}
    (h : updateRows deleted inserted s = .ok r) : r.categories = s.categories := by
  unfold updateRows at h
  split at h
  · cases h
    rfl
  · cases h

theorem realmWrite_categories {outcome : WriteOutcome}
    {block : CategoryViewController Date → Except Trap (CategoryViewController Date)}
    {s r : CategoryViewController Date} (hblock : ∀ q, block s = .ok q → q.categories = s.categories)
    (h : realmWrite outcome block s = .ok r) : r.categories = s.categories := by
  obtain ⟨b, hb⟩ := map_fst_ok h
  exact write_inv (P := fun q : CategoryViewController Date => q.categories = s.categories)
    rfl hblock (fun _ hq => hq) hb

theorem addButtonPressed_categories {titleString randomFlat : String} {outcome : WriteOutcome}
    {s r : CategoryViewController Date}
    (h : addButtonPressed titleString randomFlat outcome s = .ok r) :
    r.categories = s.categories := by
  unfold addButtonPressed addNewCategory at h
  split at h
  · cases h
    rfl
  · split at h
    · cases h
    next q hq =>
      have hkeep : q.categories = s.categories := by
        refine realmWrite_categories (fun p hp => ?_) hq
        cases hp
        rfl
      split at h
      · cases h
        exact hkeep
      · exact (updateRows_categories h).trans hkeep

theorem commitDelete_categories {row : ℕ} {outcome : WriteOutcome}
    {s r : CategoryViewController Date} (h : commitDelete row outcome s = .ok r) :
    r.categories = s.categories := by
  unfold commitDelete at h
  split at h
  · cases h
    rfl
  · split at h
    · cases h
    · refine realmWrite_categories (fun q hq => ?_) h
      exact updateRows_categories
        (s := { s with realm := (s.realm.deleteItems _).deleteCategory _ }) hq

/-! ### Runs -/

theorem handle_inStep_iff {s : CategoryViewController Date} {e : Event}
    (hc : s.categories = some .objects) (hs : InStep s) (he : Delivered s e) :
    InStepAfter (handle s e) ↔ WriteShown e := by
  cases e with
  | addCategory titleString randomFlat outcome =>
    show InStepAfter (addButtonPressed titleString randomFlat outcome s) ↔ _
    unfold addButtonPressed WriteShown
    by_cases htitle : titleString = ""
    · rw [if_pos htitle]
      exact iff_of_true hs (Or.inl htitle)
    · rw [if_neg htitle, addNewCategory_iff hc hs]
      simp [htitle]
  | delete row outcome => exact commitDelete_iff hc hs he

theorem handle_loaded {s r : CategoryViewController Date} {e : Event}
    (hc : s.categories = some .objects) (hr : handle s e = .ok r) :
    r.categories = some .objects := by
  cases e with
  | addCategory titleString randomFlat outcome => exact (addButtonPressed_categories hr).trans hc
  | delete row outcome => exact (commitDelete_categories hr).trans hc

/-- Over every sequence of additions and deletions and every pattern of failing
transactions, every batch is accepted and the table stays in step with the store exactly
when each added category is committed and no deletion fails in its commit. -/
theorem category_rows_iff (realm : Store Date) (events : List Event)
    (hdelivered : AtEach Delivered handle (viewDidLoad realm) events) :
    Accepted InStepAfter handle (viewDidLoad realm) events ↔ ∀ e ∈ events, WriteShown e := by
  have hiff : Accepted InStepAfter handle (viewDidLoad realm) events ↔
      AtEach (fun _ e => WriteShown e) handle (viewDidLoad realm) events := by
    apply accepted_iff_atEach (I := fun s => s.categories = some .objects) rfl
    · exact rfl
    · intro s e hc hs he
      exact handle_inStep_iff hc hs he
    · intro s e r hc _ _ hr _
      exact handle_loaded hc hr
    · exact hdelivered
  constructor
  · intro h
    have hend := h events (List.prefix_refl _)
    cases hr : exec handle (viewDidLoad realm) events with
    | error t =>
      rw [hr] at hend
      exact hend.elim
    | ok r => exact (atEach_iff_forall_mem ⟨r, hr⟩).mp (hiff.mp h)
  · intro h
    exact hiff.mpr (atEach_of_mem (fun e he _ => h e he) _)

/- Two categories, one deleted after a transaction that could not begin. -/
theorem home_and_work_added_home_deleted :
    Accepted InStepAfter handle (viewDidLoad (⟨Table.empty, Table.empty⟩ : Store ℕ))
      [.addCategory "Home" "3498DB" .committed, .addCategory "Work" "E67E22" .committed,
        .delete 0 .beginThrows, .delete 0 .committed] :=
  (category_rows_iff _ _ (by decide +kernel)).mpr (by decide +kernel)

/- The first category fails to commit: a row is inserted into a table that stays empty. -/
theorem home_not_committed :
    ¬ Accepted InStepAfter handle (viewDidLoad (⟨Table.empty, Table.empty⟩ : Store ℕ))
      [.addCategory "Home" "3498DB" .commitThrows] := by
  intro h
  exact h _ (List.prefix_refl _)

end PracticeApps.Todoey.Categories
