import PracticeApps.Library.ObjectTable
import PracticeApps.Library.StableSort

/-!
# The Realm store of Todoey (Category.swift, Item.swift)

One table of items and one of categories; a category owns a list of item ids.
`write` is `realm.write`: a transaction that may fail to begin or to commit,
and then leaves the store as it was. `Results` is a live query: it is evaluated
against the store each time it is read.
-/

namespace PracticeApps.Todoey
open ObjectTable StableSort

abbrev ObjectId := ℕ

structure Item (Date : Type) where
  title : String
  isDone : Bool
  dateCreated : Date
  deriving DecidableEq

structure Category where
  name : String
  items : List ObjectId
  categoryCellColor : String
  deriving DecidableEq

structure Store (Date : Type) where
  items : Table (Item Date)
  categories : Table Category
  deriving DecidableEq

variable {Date : Type}

/- The managed items of a category's list, with their ids. -/
def Store.itemsOf (store : Store Date) (category : ObjectId) : List (ObjectId × Item Date) :=
  match store.categories.find category with
  | none => []
  | some c => c.items.filterMap fun i => (store.items.find i).map fun item => (i, item)

/- `realm.add(category)` -/
def Store.addCategory (store : Store Date) (category : Category) : Store Date :=
  { store with categories := store.categories.add category }

/- `category.items.append(newItem)` of an unmanaged object adds it to the store. -/
def Store.appendItem (store : Store Date) (category : ObjectId) (newItem : Item Date) :
    Store Date where
  items := store.items.add newItem
  categories := store.categories.modify fun i c =>
    if i = category then { c with items := c.items ++ [store.items.nextId] } else c

/- `realm.delete(item)` removes the object from every list. -/
def Store.deleteItem (store : Store Date) (item : ObjectId) : Store Date where
  items := store.items.remove item
  categories := store.categories.modify fun _ c => { c with items := c.items.filter (· ≠ item) }

/- `realm.delete(category.items)` -/
def Store.deleteItems (store : Store Date) (items : List ObjectId) : Store Date :=
  items.foldl Store.deleteItem store

/- `realm.delete(category)` -/
def Store.deleteCategory (store : Store Date) (category : ObjectId) : Store Date :=
  { store with categories := store.categories.remove category }

/- `item.isDone.toggle()` -/
def Store.toggleDone (store : Store Date) (item : ObjectId) : Store Date :=
  { store with items := store.items.modify fun i c =>
      if i = item then { c with isDone := !c.isDone } else c }

theorem deleteItems_ids (store : Store Date) (items : List ObjectId) :
    (store.deleteItems items).categories.ids = store.categories.ids := by
  unfold Store.deleteItems
  induction items generalizing store with
  | nil => rfl
  | cons item items ih =>
    rw [List.foldl_cons, ih]
    exact Table.ids_modify _ _

/-! ### Transactions -/

inductive WriteOutcome where
  | committed
  | beginThrows
  | commitThrows
  deriving DecidableEq, Repr

/-- `realm.write` around a block that may also touch the screen; the flag says whether
it returned without throwing. A failing commit undoes what the block did to the store
and nothing else. -/
def write {σ τ S : Type} (store : σ → S) (restore : S → σ → σ) (outcome : WriteOutcome)
    (block : σ → Except τ σ) (s : σ) : Except τ (σ × Bool) :=
  match outcome with
  | .beginThrows => .ok (s, false)
  | .committed => (block s).map fun r => (r, true)
  | .commitThrows => (block s).map fun r => (restore (store s) r, false)

/- What a block establishes and undoing the store keeps holds after the transaction,
however it ends. -/
theorem write_inv {σ τ S : Type} {store : σ → S} {restore : S → σ → σ} {outcome : WriteOutcome}
    {block : σ → Except τ σ} {s : σ} {r : σ × Bool} {P : σ → Prop} (hs : P s)
    (hblock : ∀ q, block s = .ok q → P q) (hrestore : ∀ q, P q → P (restore (store s) q))
    (h : write store restore outcome block s = .ok r) : P r.1 := by
  unfold write at h
  cases outcome with
  | beginThrows =>
    cases h
    exact hs
  | committed =>
    cases hq : block s with
    | error t =>
      rw [hq] at h
      cases h
    | ok q =>
      rw [hq] at h
      cases h
      exact hblock q hq
  | commitThrows =>
    cases hq : block s with
    | error t =>
      rw [hq] at h
      cases h
    | ok q =>
      rw [hq] at h
      cases h
      exact hrestore q (hblock q hq)

theorem map_fst_ok {σ τ : Type} {x : Except τ (σ × Bool)} {r : σ} (h : x.map Prod.fst = .ok r) :
    ∃ b, x = .ok (r, b) := by
  cases x with
  | error t => cases h
  | ok p =>
    cases h
    exact ⟨p.2, rfl⟩

/-! ### Live results -/

/- The queries the screens build: a category's list, filtered, sorted by `dateCreated`. -/
inductive Results where
  | list (category : ObjectId)
  | filter (base : Results) (query : String)
  | sortedByDateCreated (base : Results)
  deriving DecidableEq, Repr

variable [LinearOrder Date]

/-- `contains title query` is the predicate `title CONTAINS[cd] query`. -/
def Results.eval (contains : String → String → Bool) (store : Store Date) :
    Results → List (ObjectId × Item Date)
  | .list category => store.itemsOf category
  | .filter base query => (base.eval contains store).filter fun p => contains p.2.title query
  | .sortedByDateCreated base => sortBy (fun p => p.2.dateCreated) (base.eval contains store)

/- The items of a category that contain a query, oldest first. -/
def matchingItems (contains : String → String → Bool) (store : Store Date)
    (category : ObjectId) (query : String) : List (ObjectId × Item Date) :=
  sortBy (fun p => p.2.dateCreated)
    ((store.itemsOf category).filter fun p => contains p.2.title query)

end PracticeApps.Todoey
