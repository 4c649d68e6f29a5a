import PracticeApps.Library.EventMachine
import PracticeApps.Library.TableView
import PracticeApps.Todoey.Realm

/-!
# TodoListViewController.swift

The list of a category: adding, toggling and deleting items, and the search bar.
`rows` is what the table last saw of `numberOfRowsInSection`; inside a write
block the data source answers from the store of the transaction.
-/

namespace PracticeApps.Todoey.TodoList
open EventMachine TableView

structure TodoListViewController (Date : Type) where
  realm : Store Date
  selectedCategory : Option ObjectId
  todoItems : Option Results
  searchText : String
  rows : ℕ
  deriving DecidableEq

inductive Trap where
  | indexOutOfRange (row count : ℕ)
  | table (error : TableError)
  deriving DecidableEq, Repr

/- What the platform delivers. An item is stamped with the date of its creation,
and every transaction comes with its outcome. -/
inductive Event (Date : Type) where
  | addItem (titleString : String) (now : Date) (outcome : WriteOutcome)
  | didSelectRow (row : ℕ) (outcome : WriteOutcome)
  | delete (row : ℕ) (outcome : WriteOutcome)
  | searchBarSearchButtonClicked
  | textDidChange (searchText : String)

variable {Date : Type} [LinearOrder Date] (contains : String → String → Bool)

/- The elements of `todoItems`, read now. -/
def TodoListViewController.displayed (s : TodoListViewController Date) :
    List (ObjectId × Item Date) :=
  match s.todoItems with
  | none => []
  | some results => results.eval contains s.realm

def numberOfRowsInSection (s : TodoListViewController Date) : ℕ :=
  (s.displayed contains).length

def reloadData (s : TodoListViewController Date) : TodoListViewController Date :=
  { s with rows := numberOfRowsInSection contains s }

def updateRows (deleted inserted : List ℤ) (s : TodoListViewController Date) :
    Except Trap (TodoListViewController Date) :=
  match batchUpdate s.rows (numberOfRowsInSection contains s) deleted inserted with
  | .ok rows => .ok { s with rows := rows }
  | .error e => .error (.table e)

def realmWrite (outcome : WriteOutcome)
    (block : TodoListViewController Date → Except Trap (TodoListViewController Date)) :
    TodoListViewController Date → Except Trap (TodoListViewController Date × Bool) :=
  write TodoListViewController.realm (fun realm s => { s with realm := realm }) outcome block

def loadItems (shouldReloadTableView : Bool) (s : TodoListViewController Date) :
    TodoListViewController Date :=
  let s := { s with todoItems := s.selectedCategory.map fun c => .sortedByDateCreated (.list c) }
  if shouldReloadTableView then reloadData contains s else s

/- The screen once its table has been laid out for the first time. -/
def viewDidLoad (realm : Store Date) (selectedCategory : Option ObjectId) :
    TodoListViewController Date :=
  reloadData contains
    (loadItems contains false
      { realm := realm, selectedCategory := selectedCategory, todoItems := none,
        searchText := "", rows := 0 })

def saveItem (title : String) (now : Date) (category : ObjectId) (outcome : WriteOutcome)
    (s : TodoListViewController Date) : Except Trap (TodoListViewController Date) :=
  let block := fun s : TodoListViewController Date =>
    let newItem := { title := title, isDone := false, dateCreated := now }
    .ok (reloadData contains { s with realm := s.realm.appendItem category newItem })
  (realmWrite outcome block s).map Prod.fst

def addButtonPressed (titleString : String) (now : Date) (outcome : WriteOutcome)
    (s : TodoListViewController Date) : Except Trap (TodoListViewController Date) :=
  if titleString = "" then .ok s
  else match s.selectedCategory with
    | none => .ok s
    | some currentCategory => saveItem contains titleString now currentCategory outcome s

/- `todoItems?[indexPath.row]`: nothing without results, a trap past their end. -/
def itemAt (row : ℕ) (s : TodoListViewController Date) : Except Trap (Option ObjectId) :=
  match s.todoItems with
  | none => .ok none
  | some results =>
    match (results.eval contains s.realm)[row]? with
    | some item => .ok (some item.1)
    | none => .error (.indexOutOfRange row (results.eval contains s.realm).length)

def didSelectRowAt (row : ℕ) (outcome : WriteOutcome) (s : TodoListViewController Date) :
    Except Trap (TodoListViewController Date) :=
  match itemAt contains row s with
  | .error t => .error t
  | .ok none => .ok s
  | .ok (some item) =>
    match realmWrite outcome (fun s => .ok { s with realm := s.realm.toggleDone item }) s with
    | .error t => .error t
    | .ok (s, true) => updateRows contains [(row : ℤ)] [(row : ℤ)] s
    | .ok (s, false) => .ok s

def commitDelete (row : ℕ) (outcome : WriteOutcome) (s : TodoListViewController Date) :
    Except Trap (TodoListViewController Date) :=
  match itemAt contains row s with
  | .error t => .error t
  | .ok none => .ok s
  | .ok (some item) =>
    (realmWrite outcome (fun s =>
      updateRows contains [(row : ℤ)] [] { s with realm := s.realm.deleteItem item }) s).map Prod.fst

def searchBarSearchButtonClicked (s : TodoListViewController Date) : TodoListViewController Date :=
  if s.searchText = "" then s
  else
    reloadData contains
      { s with todoItems := s.todoItems.map fun results =>
                .sortedByDateCreated (.filter results s.searchText) }

def textDidChange (searchText : String) (s : TodoListViewController Date) :
    TodoListViewController Date :=
  let s := { s with searchText := searchText }
  if s.searchText.length = 0 then loadItems contains true s else s

def handle (s : TodoListViewController Date) :
    Event Date → Except Trap (TodoListViewController Date)
  | .addItem titleString now outcome => addButtonPressed contains titleString now outcome s
  | .didSelectRow row outcome => didSelectRowAt contains row outcome s
  | .delete row outcome => commitDelete contains row outcome s
  | .searchBarSearchButtonClicked => .ok (searchBarSearchButtonClicked contains s)
  | .textDidChange searchText => .ok (textDidChange contains searchText s)

/-! ### What the item operations leave alone -/

/- The search bar's side of the screen. -/
def SameSearch (s r : TodoListViewController Date) : Prop :=
  r.selectedCategory = s.selectedCategory ∧ r.todoItems = s.todoItems ∧ r.searchText = s.searchText

omit [LinearOrder Date] in
theorem SameSearch.trans {s q r : TodoListViewController Date} (h : SameSearch s q)
    (g : SameSearch q r) : SameSearch s r :=
  ⟨g.1.trans h.1, g.2.1.trans h.2.1, g.2.2.trans h.2.2⟩

theorem updateRows_sameSearch {deleted inserted : List ℤ} {s r : TodoListViewController Date}
    (h : updateRows contains deleted inserted s = .ok r) : SameSearch s r := by
  unfold updateRows at h
  split at h
  · cases h
    exact ⟨rfl, rfl, rfl⟩
  · cases h

omit [LinearOrder Date] in
/- A block that keeps the search keeps it through the transaction, however that ends. -/
theorem realmWrite_sameSearch {outcome : WriteOutcome}
    {block : TodoListViewController Date → Except Trap (TodoListViewController Date)}
    {s : TodoListViewController Date} {r : TodoListViewController Date × Bool}
    (hblock : ∀ q, block s = .ok q → SameSearch s q)
    (h : realmWrite outcome block s = .ok r) : SameSearch s r.1 :=
  write_inv (P := SameSearch s) ⟨rfl, rfl, rfl⟩ hblock (fun _ hq => hq) h

theorem addButtonPressed_sameSearch {titleString : String} {now : Date} {outcome : WriteOutcome}
    {s r : TodoListViewController Date}
    (h : addButtonPressed contains titleString now outcome s = .ok r) : SameSearch s r := by
  unfold addButtonPressed at h
  split at h
  · cases h
    exact ⟨rfl, rfl, rfl⟩
  · split at h
    · cases h
      exact ⟨rfl, rfl, rfl⟩
    · obtain ⟨b, hb⟩ := map_fst_ok h
      refine realmWrite_sameSearch (fun q hq => ?_) hb
      cases hq
      exact ⟨rfl, rfl, rfl⟩

omit [LinearOrder Date] in
theorem toggle_sameSearch {item : ObjectId} {outcome : WriteOutcome}
    {s : TodoListViewController Date} {r : TodoListViewController Date × Bool}
    (h : realmWrite outcome (fun s => .ok { s with realm := s.realm.toggleDone item }) s = .ok r) :
    SameSearch s r.1 := by
  refine realmWrite_sameSearch (fun q hq => ?_) h
  cases hq
  exact ⟨rfl, rfl, rfl⟩

theorem didSelectRowAt_sameSearch {row : ℕ} {outcome : WriteOutcome}
    {s r : TodoListViewController Date} (h : didSelectRowAt contains row outcome s = .ok r) :
    SameSearch s r := by
  unfold didSelectRowAt at h
  split at h
  · cases h
  · cases h
    exact ⟨rfl, rfl, rfl⟩
  · split at h
    · cases h
    next q hq => exact (toggle_sameSearch hq).trans (updateRows_sameSearch contains h)
    next q hq =>
      cases h
      exact toggle_sameSearch hq

theorem commitDelete_sameSearch {row : ℕ} {outcome : WriteOutcome}
    {s r : TodoListViewController Date} (h : commitDelete contains row outcome s = .ok r) :
    SameSearch s r := by
  unfold commitDelete at h
  split at h
  · cases h
  · cases h
    exact ⟨rfl, rfl, rfl⟩
  · obtain ⟨b, hb⟩ := map_fst_ok h
    refine realmWrite_sameSearch (fun q hq => ?_) hb
    obtain ⟨h1, h2, h3⟩ := updateRows_sameSearch contains hq
    exact ⟨h1, h2, h3⟩

end PracticeApps.Todoey.TodoList
