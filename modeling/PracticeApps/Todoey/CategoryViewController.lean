import PracticeApps.Library.EventMachine
import PracticeApps.Library.TableView
import PracticeApps.Todoey.Realm

/-!
# CategoryViewController.swift

Adding and deleting categories. The row is inserted after the transaction of an
added category, and deleted inside the transaction of a deleted one.
-/

namespace PracticeApps.Todoey.Categories
open EventMachine ObjectTable TableView

/- `realm.objects(Category.self)` -/
inductive Results where
  | objects
  deriving DecidableEq, Repr

structure CategoryViewController (Date : Type) where
  realm : Store Date
  categories : Option Results
  rows : ℕ
  deriving DecidableEq

inductive Trap where
  | indexOutOfRange (row count : ℕ)
  | table (error : TableError)
  deriving DecidableEq, Repr

/- The alert's button with the text typed and the random colour, and a row swiped
away; every transaction comes with its outcome. -/
inductive Event where
  | addCategory (titleString randomFlat : String) (outcome : WriteOutcome)
  | delete (row : ℕ) (outcome : WriteOutcome)
  deriving DecidableEq

variable {Date : Type}

def Results.eval (store : Store Date) : Results → List (ObjectId × Category)
  | .objects => store.categories.rows

def numberOfRowsInSection (s : CategoryViewController Date) : ℕ :=
  match s.categories with
  | none => 0
  | some categories => (categories.eval s.realm).length

def loadCategories (s : CategoryViewController Date) : CategoryViewController Date :=
  { s with categories := some .objects }

/- The screen once its table has been laid out for the first time. -/
def viewDidLoad (realm : Store Date) : CategoryViewController Date :=
  let s := loadCategories { realm := realm, categories := none, rows := 0 }
  { s with rows := numberOfRowsInSection s }

def updateRows (deleted inserted : List ℤ) (s : CategoryViewController Date) :
    Except Trap (CategoryViewController Date) :=
  match batchUpdate s.rows (numberOfRowsInSection s) deleted inserted with
  | .ok rows => .ok { s with rows := rows }
  | .error e => .error (.table e)

def realmWrite (outcome : WriteOutcome)
    (block : CategoryViewController Date → Except Trap (CategoryViewController Date))
    (s : CategoryViewController Date) : Except Trap (CategoryViewController Date) :=
  (write CategoryViewController.realm (fun realm s => { s with realm := realm }) outcome block s).map
    Prod.fst

/- The error of a transaction that throws is printed and dropped. -/
def saveCategory (category : Category) (outcome : WriteOutcome) :
    CategoryViewController Date → Except Trap (CategoryViewController Date) :=
  realmWrite outcome fun s => .ok { s with realm := s.realm.addCategory category }

def addNewCategory (category : Category) (outcome : WriteOutcome)
    (s : CategoryViewController Date) : Except Trap (CategoryViewController Date) :=
  match saveCategory category outcome s with
  | .error t => .error t
  | .ok s =>
    match s.categories with
    | none => .ok s
    | some categories =>
      let categoriesCount := (categories.eval s.realm).length
      updateRows [] [(categoriesCount : ℤ) - 1] s

def addButtonPressed (titleString randomFlat : String) (outcome : WriteOutcome)
    (s : CategoryViewController Date) : Except Trap (CategoryViewController Date) :=
  if titleString = "" then .ok s
  else
    addNewCategory { name := titleString, items := [], categoryCellColor := randomFlat } outcome s

def deleteBlock (row : ℕ) (category : ObjectId × Category) (s : CategoryViewController Date) :
    Except Trap (CategoryViewController Date) :=
  updateRows [(row : ℤ)] []
    { s with realm := (s.realm.deleteItems category.2.items).deleteCategory category.1 }

def commitDelete (row : ℕ) (outcome : WriteOutcome) (s : CategoryViewController Date) :
    Except Trap (CategoryViewController Date) :=
  match s.categories with
  | none => .ok s
  | some categories =>
    match (categories.eval s.realm)[row]? with
    | none => .error (.indexOutOfRange row (categories.eval s.realm).length)
    | some category => realmWrite outcome (deleteBlock row category) s

def handle (s : CategoryViewController Date) : Event → Except Trap (CategoryViewController Date)
  | .addCategory titleString randomFlat outcome => addButtonPressed titleString randomFlat outcome s
  | .delete row outcome => commitDelete row outcome s

end PracticeApps.Todoey.Categories
