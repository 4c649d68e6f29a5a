import PracticeApps.Todoey.TodoListViewController
import Mathlib.Data.List.Infix

/-!
# Searching a category

`todoItems` is both what is shown and what the next search filters, and only
clearing the text goes back to the whole category. So the list after a search
is narrowed by every query since the text was last cleared.
-/

namespace PracticeApps.Todoey.TodoList
open EventMachine ObjectTable StableSort

variable {Date : Type} [LinearOrder Date] (contains : String → String → Bool)

/-! ### The history of the search bar -/

structure SearchHistory where
  text : String
  queries : List String

/- The queries searched since the text was last cleared, or since the screen opened. -/
def SearchHistory.next (history : SearchHistory) : Event Date → SearchHistory
  | .searchBarSearchButtonClicked =>
    if history.text = "" then history
    else { history with queries := history.queries ++ [history.text] }
  | .textDidChange searchText =>
    if searchText = "" then ⟨searchText, []⟩ else { history with text := searchText }
  | _ => history

def searchHistory (events : List (Event Date)) : SearchHistory :=
  events.foldl SearchHistory.next ⟨"", []⟩

omit [LinearOrder Date] in
theorem searchHistory_concat (events : List (Event Date)) (e : Event Date) :
    searchHistory (events ++ [e]) = (searchHistory events).next e := by
  unfold searchHistory
  rw [List.foldl_append]
  rfl

/-! ### The results that the history leaves -/

def narrowed (category : ObjectId) (queries : List String) : Results :=
  queries.foldl (fun results query => .sortedByDateCreated (.filter results query))
    (.sortedByDateCreated (.list category))

theorem narrowed_concat (category : ObjectId) (queries : List String) (query : String) :
    narrowed category (queries ++ [query]) =
      .sortedByDateCreated (.filter (narrowed category queries) query) := by
  unfold narrowed
  rw [List.foldl_append]
  rfl

/-- Narrowing again and again is one filter for all the queries, sorted once. -/
theorem eval_narrowed (store : Store Date) (category : ObjectId) (queries : List String) :
    (narrowed category queries).eval contains store =
      sortBy (fun p => p.2.dateCreated)
        ((store.itemsOf category).filter fun p => queries.all (contains p.2.title)) := by
  induction queries using List.reverseRecOn with
  | nil => simp [narrowed, Results.eval]
  | append_singleton queries query ih =>
    rw [narrowed_concat]
    simp only [Results.eval]
    rw [ih, filter_sortBy, sortBy_sortBy, List.filter_filter]
    congr 2
    funext p
    rw [List.all_append, Bool.and_comm]
    simp

/-! ### The screen follows the history -/

def FollowsHistory (category : ObjectId) (events : List (Event Date))
    (s : TodoListViewController Date) : Prop :=
  s.selectedCategory = some category ∧ s.searchText = (searchHistory events).text ∧
    s.todoItems = some (narrowed category (searchHistory events).queries)

variable {contains}

omit [LinearOrder Date] in
theorem followsHistory_sameSearch {category : ObjectId} {events : List (Event Date)}
    {e : Event Date} {s r : TodoListViewController Date} (h : FollowsHistory category events s)
    (hsame : SameSearch s r) (hnext : (searchHistory events).next e = searchHistory events) :
    FollowsHistory category (events ++ [e]) r := by
  unfold FollowsHistory
  rw [searchHistory_concat, hnext, hsame.1, hsame.2.1, hsame.2.2]
  exact h

theorem searchBarSearchButtonClicked_follows {category : ObjectId} {events : List (Event Date)}
    {s : TodoListViewController Date} (h : FollowsHistory category events s) :
    FollowsHistory category (events ++ [.searchBarSearchButtonClicked])
      (searchBarSearchButtonClicked contains s) := by
  obtain ⟨hc, ht, hi⟩ := h
  unfold FollowsHistory searchBarSearchButtonClicked
  rw [searchHistory_concat]
  simp only [SearchHistory.next, ← ht]
  split
  · exact ⟨hc, ht, hi⟩
  · refine ⟨hc, rfl, ?_⟩
    rw [narrowed_concat]
    simp only [reloadData, hi, Option.map_some]

theorem textDidChange_follows {category : ObjectId} {events : List (Event Date)}
    {s : TodoListViewController Date} (h : FollowsHistory category events s) (searchText : String) :
    FollowsHistory category (events ++ [.textDidChange searchText])
      (textDidChange contains searchText s) := by
  obtain ⟨hc, ht, hi⟩ := h
  unfold FollowsHistory textDidChange
  rw [searchHistory_concat]
  simp only [SearchHistory.next, String.length_eq_zero_iff]
  split
  · refine ⟨hc, rfl, ?_⟩
    simp [loadItems, reloadData, hc, narrowed]
  · exact ⟨hc, rfl, hi⟩

theorem handle_follows {category : ObjectId} {events : List (Event Date)}
    {s r : TodoListViewController Date} {e : Event Date} (h : FollowsHistory category events s)
    (hr : handle contains s e = .ok r) : FollowsHistory category (events ++ [e]) r := by
  cases e with
  | addItem titleString now outcome =>
    exact followsHistory_sameSearch h (addButtonPressed_sameSearch contains hr) rfl
  | didSelectRow row outcome =>
    exact followsHistory_sameSearch h (didSelectRowAt_sameSearch contains hr) rfl
  | delete row outcome =>
    exact followsHistory_sameSearch h (commitDelete_sameSearch contains hr) rfl
  | searchBarSearchButtonClicked =>
    cases hr
    exact searchBarSearchButtonClicked_follows h
  | textDidChange searchText =>
    cases hr
    exact textDidChange_follows h searchText

theorem run_follows (store : Store Date) (category : ObjectId) {events : List (Event Date)}
    {s : TodoListViewController Date}
    (h : exec (handle contains) (viewDidLoad contains store (some category)) events = .ok s) :
    FollowsHistory category events s := by
  refine exec_history (E := fun _ _ => True) (I := FollowsHistory category) ?_ ?_
    (atEach_of_forall (fun _ _ => trivial) _ events) h
  · exact ⟨rfl, rfl, rfl⟩
  · intro es s e r hs _ hr
    exact handle_follows hs hr

/-! ### What a search shows -/

/-- After any run on a category, a click with a non-empty text shows the items of the
category that contain the text, oldest first, exactly when all of these also contain
every query searched since the text was last cleared. -/
theorem search_shows_matches_iff (contains : String → String → Bool) (store : Store Date)
    (category : ObjectId) (events : List (Event Date)) (s : TodoListViewController Date)
    (h : exec (handle contains) (viewDidLoad contains store (some category)) events = .ok s)
    (htext : s.searchText ≠ "") :
    (searchBarSearchButtonClicked contains s).displayed contains =
        matchingItems contains s.realm category s.searchText ↔
      ∀ p ∈ s.realm.itemsOf category, contains p.2.title s.searchText = true →
        ∀ query ∈ (searchHistory events).queries, contains p.2.title query = true := by
  obtain ⟨hc, ht, hi⟩ := run_follows store category h
  have hclick : FollowsHistory category (events ++ [.searchBarSearchButtonClicked])
      (searchBarSearchButtonClicked contains s) := searchBarSearchButtonClicked_follows ⟨hc, ht, hi⟩
  have hrealm : (searchBarSearchButtonClicked contains s).realm = s.realm := by
    unfold searchBarSearchButtonClicked
    split <;> rfl
  have hqueries : (searchHistory (events ++ [.searchBarSearchButtonClicked])).queries =
      (searchHistory events).queries ++ [s.searchText] := by
    rw [searchHistory_concat]
    simp only [SearchHistory.next, ← ht, if_neg htext]
  have hshown : (searchBarSearchButtonClicked contains s).displayed contains =
      sortBy (fun p => p.2.dateCreated) ((s.realm.itemsOf category).filter fun p =>
        ((searchHistory events).queries ++ [s.searchText]).all (contains p.2.title)) := by
    unfold TodoListViewController.displayed
    rw [hclick.2.2, hqueries, hrealm]
    exact eval_narrowed contains s.realm category _
  rw [hshown]
  unfold matchingItems
  rw [sortBy_filter_eq_iff]
  · simp only [List.all_append, List.all_cons, List.all_nil, Bool.and_true, Bool.and_eq_true,
      List.all_eq_true]
    constructor
    · intro hall p hp hmatch
      exact (hall p hp hmatch).1
    · intro hall p hp hmatch
      exact ⟨hall p hp hmatch, hmatch⟩
  · intro p _ hp
    rw [List.all_append, Bool.and_eq_true] at hp
    simpa using hp.2

/- `CONTAINS[cd]` on titles and queries without diacritics. -/
def containsFolded (title query : String) : Bool :=
  decide (query.toList.map Char.toLower <:+: title.toList.map Char.toLower)

def homeStore : Store ℕ :=
  let empty : Store ℕ := ⟨Table.empty, Table.empty⟩
  ((empty.addCategory ⟨"Home", [], "3498DB"⟩).appendItem 0 ⟨"Buy milk", false, 10⟩).appendItem 0
    ⟨"Sell eggs", false, 5⟩

def homeList (events : List (Event ℕ)) : Except Trap (TodoListViewController ℕ) :=
  exec (handle containsFolded) (viewDidLoad containsFolded homeStore (some 0)) events

/- Milk and fresh milk shown for "MI", the text now "MILK". -/
def milkTyped : TodoListViewController ℕ :=
  { realm := homeStore.appendItem 0 ⟨"Fresh milk", false, 7⟩
    selectedCategory := some 0
    todoItems := some (narrowed 0 ["MI"])
    searchText := "MILK"
    rows := 2 }

/- The milk shown, the text now "eggs". -/
def eggsTyped : TodoListViewController ℕ :=
  { realm := homeStore
    selectedCategory := some 0
    todoItems := some (narrowed 0 ["milk"])
    searchText := "eggs"
    rows := 1 }

/- A search for part of the word, an item added under it, then the whole word. -/
theorem search_milk_after_mi :
    (searchBarSearchButtonClicked containsFolded milkTyped).displayed containsFolded =
      matchingItems containsFolded milkTyped.realm 0 "MILK" :=
  (search_shows_matches_iff containsFolded homeStore 0
    [.textDidChange "MI", .searchBarSearchButtonClicked, .addItem "Fresh milk" 7 .committed,
      .textDidChange "MILK"] milkTyped (by decide +kernel) (by decide)).mpr (by decide +kernel)

/- A second search without clearing the text misses the eggs. -/
theorem search_eggs_after_milk :
    ¬ ∀ events s, homeList events = .ok s → s.searchText ≠ "" →
      (searchBarSearchButtonClicked containsFolded s).displayed containsFolded =
        matchingItems containsFolded s.realm 0 s.searchText := by
  intro h
  have heggs := h [.textDidChange "milk", .searchBarSearchButtonClicked, .textDidChange "eggs"]
    eggsTyped (by decide +kernel) (by decide)
  revert heggs
  decide +kernel

end PracticeApps.Todoey.TodoList
