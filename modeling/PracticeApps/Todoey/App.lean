import PracticeApps.Todoey.CategoryRows
import PracticeApps.Todoey.ItemRows
import PracticeApps.Todoey.Search

/-!
# The app: two screens over one store

The list of a category is pushed on top of the category screen by the segue
`goToItems`, and only the screen on top gets events. The store is on disk: it
outlives a launch.
-/

namespace PracticeApps.Todoey
open EventMachine ObjectTable

inductive App (Date : Type) where
  | categories (screen : Categories.CategoryViewController Date)
  | todoList (below : Categories.CategoryViewController Date)
      (screen : TodoList.TodoListViewController Date)

inductive App.Trap where
  | categories (trap : Categories.Trap)
  | todoList (trap : TodoList.Trap)
  deriving DecidableEq, Repr

inductive App.Event (Date : Type) where
  | categories (e : Categories.Event)
  | goToItems (row : ℕ)
  | todoList (e : TodoList.Event Date)
  | back
  | relaunch

namespace App

variable {Date : Type} [LinearOrder Date] (contains : String → String → Bool)

omit [LinearOrder Date] in
def store : App Date → Store Date
  | .categories screen => screen.realm
  | .todoList _ screen => screen.realm

omit [LinearOrder Date] in
/- `self.categories?[row]` in `prepare(for:sender:)` (CategoryViewController.swift). -/
def categoryAt (row : ℕ) (screen : Categories.CategoryViewController Date) :
    Except Categories.Trap (Option ObjectId) :=
  match screen.categories with
  | none => .ok none
  | some results =>
    match (results.eval screen.realm)[row]? with
    | none => .error (.indexOutOfRange row (results.eval screen.realm).length)
    | some category => .ok (some category.1)

def handle (app : App Date) (e : Event Date) : Except Trap (App Date) :=
  match app, e with
  | .categories screen, .categories e =>
    match Categories.handle screen e with
    | .ok screen => .ok (.categories screen)
    | .error t => .error (.categories t)
  | .categories screen, .goToItems row =>
    match categoryAt row screen with
    | .ok selectedCategory =>
      .ok (.todoList screen (TodoList.viewDidLoad contains screen.realm selectedCategory))
    | .error t => .error (.categories t)
  | .todoList below screen, .todoList e =>
    match TodoList.handle contains screen e with
    | .ok screen => .ok (.todoList below screen)
    | .error t => .error (.todoList t)
  | .todoList below screen, .back => .ok (.categories { below with realm := screen.realm })
  | app, .relaunch => .ok (.categories (Categories.viewDidLoad app.store))
  | app, _ => .ok app

/- The app after its installation, with an empty store. -/
def firstLaunch : App Date := .categories (Categories.viewDidLoad ⟨Table.empty, Table.empty⟩)

omit [LinearOrder Date] in
def Delivered (app : App Date) (e : Event Date) : Prop :=
  match app, e with
  | .categories screen, .categories e => Categories.Delivered screen e
  | .categories screen, .goToItems row => row < screen.rows
  | .todoList _ screen, .todoList e => TodoList.Delivered screen e
  | .todoList _ _, .back => True
  | _, .relaunch => True
  | _, _ => False

instance (app : App Date) (e : Event Date) : Decidable (Delivered app e) := by
  cases app <;> cases e <;> unfold Delivered <;> infer_instance

def Committed : Event Date → Prop
  | .categories (.addCategory _ _ outcome) => outcome = .committed
  | .categories (.delete _ outcome) => outcome = .committed
  | .todoList e => TodoList.Committed e
  | _ => True

instance (e : Event Date) : Decidable (Committed e) := by
  rcases e with (_ | _) | _ | _ | _ | _ <;> unfold Committed <;> infer_instance

/-! ### Every run keeps the store consistent -/

/- The screens as the navigation leaves them, over a consistent store. -/
def Safe : App Date → Prop
  | .categories screen => Consistent screen.realm ∧ screen.categories = some .objects
  | .todoList below screen => Consistent screen.realm ∧ below.categories = some .objects ∧
      TodoList.SelectedStored screen

omit [LinearOrder Date] in
theorem safe_consistent {app : App Date} (h : Safe app) : Consistent app.store := by
  cases app with
  | categories screen => exact h.1
  | todoList below screen => exact h.1

omit [LinearOrder Date] in
theorem categoryAt_stored {row : ℕ} {screen : Categories.CategoryViewController Date}
    {selected : Option ObjectId} (h : categoryAt row screen = .ok selected) :
    ∀ c, selected = some c → c ∈ screen.realm.categories.ids := by
  intro c hc
  unfold categoryAt at h
  split at h
  · cases h
    cases hc
  next results _ =>
    split at h
    · cases h
    next category hrow =>
      cases h
      cases hc
      cases results
      exact List.mem_map_of_mem (List.mem_of_getElem? hrow)

omit [LinearOrder Date] in
theorem updateRows_realm {deleted inserted : List ℤ}
    {s r : Categories.CategoryViewController Date}
    (h : Categories.updateRows deleted inserted s = .ok r) : r.realm = s.realm := by
  unfold Categories.updateRows at h
  split at h
  · cases h
    rfl
  · cases h

omit [LinearOrder Date] in
theorem deleteBlock_realm {row : ℕ} {category : ObjectId × Category}
    {s r : Categories.CategoryViewController Date}
    (h : Categories.deleteBlock row category s = .ok r) :
    r.realm = (s.realm.deleteItems category.2.items).deleteCategory category.1 :=
  updateRows_realm h

omit [LinearOrder Date] in
theorem realmWrite_consistent {outcome : WriteOutcome}
    {block : Categories.CategoryViewController Date →
      Except Categories.Trap (Categories.CategoryViewController Date)}
    {s r : Categories.CategoryViewController Date} (hs : Consistent s.realm)
    (hblock : ∀ q, block s = .ok q → Consistent q.realm)
    (h : Categories.realmWrite outcome block s = .ok r) : Consistent r.realm := by
  obtain ⟨b, hb⟩ := map_fst_ok h
  exact write_inv (P := fun q : Categories.CategoryViewController Date => Consistent q.realm)
    hs hblock (fun _ _ => hs) hb

omit [LinearOrder Date] in
theorem addCategory_consistent {titleString randomFlat : String} {outcome : WriteOutcome}
    {s r : Categories.CategoryViewController Date} (hs : Consistent s.realm)
    (h : Categories.addButtonPressed titleString randomFlat outcome s = .ok r) :
    Consistent r.realm := by
  unfold Categories.addButtonPressed Categories.addNewCategory at h
  split at h
  · cases h
    exact hs
  · split at h
    · cases h
    next q hq =>
      have hsaved : Consistent q.realm := by
        refine realmWrite_consistent hs (fun p hp => ?_) hq
        cases hp
        exact Todoey.addCategory_consistent hs rfl
      split at h
      · cases h
        exact hsaved
      · rw [updateRows_realm h]
        exact hsaved

omit [LinearOrder Date] in
theorem commitDelete_consistent {row : ℕ} {outcome : WriteOutcome}
    {s r : Categories.CategoryViewController Date} (hs : Consistent s.realm)
    (h : Categories.commitDelete row outcome s = .ok r) : Consistent r.realm := by
  unfold Categories.commitDelete at h
  split at h
  · cases h
    exact hs
  next results _ =>
    split at h
    · cases h
    next category hrow =>
      refine realmWrite_consistent hs (fun q hq => ?_) h
      rw [deleteBlock_realm hq]
      cases results
      exact deleteCategory_consistent hs (List.mem_of_getElem? hrow)

omit [LinearOrder Date] in
theorem categories_consistent {s r : Categories.CategoryViewController Date} {e : Categories.Event}
    (hs : Consistent s.realm) (h : Categories.handle s e = .ok r) : Consistent r.realm := by
  cases e with
  | addCategory titleString randomFlat outcome => exact addCategory_consistent hs h
  | delete row outcome => exact commitDelete_consistent hs h

variable {contains}

/- What an event of the screen on top can lead to. -/
theorem handle_categories_inv {screen : Categories.CategoryViewController Date}
    {e : Categories.Event} {r : App Date}
    (h : handle contains (.categories screen) (.categories e) = .ok r) :
    ∃ q, Categories.handle screen e = .ok q ∧ r = .categories q := by
  unfold handle at h
  dsimp only at h
  split at h
  next q hq =>
    cases h
    exact ⟨q, hq, rfl⟩
  · cases h

theorem handle_goToItems_inv {screen : Categories.CategoryViewController Date} {row : ℕ}
    {r : App Date} (h : handle contains (.categories screen) (.goToItems row) = .ok r) :
    ∃ selected, categoryAt row screen = .ok selected ∧
      r = .todoList screen (TodoList.viewDidLoad contains screen.realm selected) := by
  unfold handle at h
  dsimp only at h
  split at h
  next selected hselected =>
    cases h
    exact ⟨selected, hselected, rfl⟩
  · cases h

theorem handle_todoList_inv {below : Categories.CategoryViewController Date}
    {screen : TodoList.TodoListViewController Date} {e : TodoList.Event Date} {r : App Date}
    (h : handle contains (.todoList below screen) (.todoList e) = .ok r) :
    ∃ q, TodoList.handle contains screen e = .ok q ∧ r = .todoList below q := by
  unfold handle at h
  dsimp only at h
  split at h
  next q hq =>
    cases h
    exact ⟨q, hq, rfl⟩
  · cases h

theorem handle_safe {app r : App Date} {e : Event Date} (hs : Safe app)
    (h : handle contains app e = .ok r) : Safe r := by
  cases app with
  | categories screen =>
    obtain ⟨hconsistent, hloaded⟩ := hs
    cases e with
    | categories e =>
      obtain ⟨q, hq, rfl⟩ := handle_categories_inv h
      exact ⟨categories_consistent hconsistent hq, Categories.handle_loaded hloaded hq⟩
    | goToItems row =>
      obtain ⟨selected, hselected, rfl⟩ := handle_goToItems_inv h
      exact ⟨hconsistent, hloaded, categoryAt_stored hselected⟩
    | relaunch =>
      cases h
      exact ⟨hconsistent, rfl⟩
    | todoList e =>
      cases h
      exact ⟨hconsistent, hloaded⟩
    | back =>
      cases h
      exact ⟨hconsistent, hloaded⟩
  | todoList below screen =>
    obtain ⟨hconsistent, hloaded, hstored⟩ := hs
    cases e with
    | todoList e =>
      obtain ⟨q, hq, rfl⟩ := handle_todoList_inv h
      have hkept := TodoList.handle_kept hconsistent hstored hq
      exact ⟨hkept.consistent, hloaded, hkept.selectedStored hstored⟩
    | back =>
      cases h
      exact ⟨hconsistent, hloaded⟩
    | relaunch =>
      cases h
      exact ⟨hconsistent, rfl⟩
    | categories e =>
      cases h
      exact ⟨hconsistent, hloaded, hstored⟩
    | goToItems row =>
      cases h
      exact ⟨hconsistent, hloaded, hstored⟩

theorem run_safe {events : List (Event Date)} {app r : App Date} (hs : Safe app)
    (h : exec (handle contains) app events = .ok r) : Safe r := by
  refine exec_history (E := fun _ _ => True) (I := fun _ app => Safe app) hs ?_
    (atEach_of_forall (fun _ _ => trivial) _ events) h
  intro es q e r hq _ hr
  exact handle_safe hq hr

omit [LinearOrder Date] in
theorem firstLaunch_safe : Safe (firstLaunch : App Date) := ⟨empty_consistent, rfl⟩

/-- Also over transactions that fail, every store a run from the first launch reaches has
its items in exactly one category each. -/
theorem integrity_of_run {events : List (Event Date)} {app : App Date}
    (h : exec (handle contains) firstLaunch events = .ok app) : Integrity app.store :=
  (safe_consistent (run_safe firstLaunch_safe h)).integrity

/- An item that could not be saved. -/
def unsavedItem : List (Event ℕ) :=
  [.categories (.addCategory "Home" "3498DB" .committed), .goToItems 0,
    .todoList (.addItem "Buy milk" 10 .commitThrows)]

theorem unsavedItem_integrity : ∃ app,
    exec (handle TodoList.containsFolded) firstLaunch unsavedItem = .ok app ∧
      Integrity app.store := by
  have hrun : exec (handle TodoList.containsFolded) firstLaunch unsavedItem = .ok _ := rfl
  exact ⟨_, hrun, integrity_of_run hrun⟩

/-! ### While the transactions commit -/

def InStep (contains : String → String → Bool) : App Date → Prop
  | .categories screen => Categories.InStep screen
  | .todoList below screen =>
    below.rows = screen.realm.categories.count ∧ TodoList.InStep contains screen

omit [LinearOrder Date] in
theorem categoryAt_ok {row : ℕ} {screen : Categories.CategoryViewController Date}
    (hloaded : screen.categories = some .objects) (hrow : row < screen.realm.categories.count) :
    ∃ selected, categoryAt row screen = .ok selected := by
  have hget := List.getElem?_eq_getElem (l := screen.realm.categories.rows) hrow
  unfold categoryAt
  rw [hloaded]
  simp only [Categories.Results.eval, hget]
  exact ⟨_, rfl⟩

omit [LinearOrder Date] in
theorem writeShown_of_committed {e : Categories.Event}
    (h : Committed (.categories e : Event Date)) : Categories.WriteShown e := by
  cases e with
  | addCategory titleString randomFlat outcome => exact Or.inr h
  | delete row outcome =>
    cases h
    exact WriteOutcome.noConfusion

omit [LinearOrder Date] in
theorem categories_committed {screen : Categories.CategoryViewController Date}
    {e : Categories.Event} (hloaded : screen.categories = some .objects)
    (hstep : Categories.InStep screen) (he : Categories.Delivered screen e)
    (hshown : Categories.WriteShown e) :
    ∃ q, Categories.handle screen e = .ok q ∧ Categories.InStep q := by
  have hafter := (Categories.handle_inStep_iff hloaded hstep he).mpr hshown
  cases hq : Categories.handle screen e with
  | error t =>
    rw [hq] at hafter
    exact hafter.elim
  | ok q =>
    rw [hq] at hafter
    exact ⟨q, rfl, hafter⟩

theorem handle_committed {app : App Date} {e : Event Date} (hs : Safe app)
    (hstep : InStep contains app) (he : Delivered app e) (hcommitted : Committed e) :
    ∃ r, handle contains app e = .ok r ∧ InStep contains r := by
  cases app with
  | categories screen =>
    obtain ⟨hconsistent, hloaded⟩ := hs
    have hrows : screen.rows = screen.realm.categories.count :=
      Eq.trans hstep (Categories.loaded_rows hloaded)
    cases e with
    | categories e =>
      obtain ⟨q, hq, hin⟩ :=
        categories_committed hloaded hstep he (writeShown_of_committed hcommitted)
      refine ⟨.categories q, ?_, hin⟩
      simp only [handle, hq]
    | goToItems row =>
      have hrow : row < screen.realm.categories.count := hrows ▸ he
      obtain ⟨selected, hselected⟩ := categoryAt_ok hloaded hrow
      refine ⟨.todoList screen (TodoList.viewDidLoad contains screen.realm selected), ?_, hrows, rfl⟩
      simp only [handle, hselected]
    | relaunch => exact ⟨_, rfl, rfl⟩
    | todoList e => exact he.elim
    | back => exact he.elim
  | todoList below screen =>
    obtain ⟨hconsistent, hloaded, hstored⟩ := hs
    obtain ⟨hbelow, hscreen⟩ := hstep
    cases e with
    | todoList e =>
      obtain ⟨q, hq, hin⟩ := TodoList.handle_committed hscreen hconsistent he hcommitted
      have hkept := TodoList.handle_kept hconsistent hstored hq
      refine ⟨.todoList below q, ?_, ?_, hin⟩
      · simp only [handle, hq]
      · rw [hbelow, ← Table.length_ids, ← Table.length_ids, hkept.categories]
    | back =>
      have hkept := Categories.loaded_rows (s := { below with realm := screen.realm }) hloaded
      exact ⟨_, rfl, hbelow.trans hkept.symm⟩
    | relaunch => exact ⟨_, rfl, rfl⟩
    | categories e => exact he.elim
    | goToItems row => exact he.elim

theorem delete_deletesOnly {screen : Categories.CategoryViewController Date} {row : ℕ}
    {category : ObjectId × Category} (hs : Safe (.categories screen))
    (hstep : InStep contains (.categories screen))
    (hrow : screen.realm.categories.rows[row]? = some category) :
    ∃ r, handle contains (.categories screen) (.categories (.delete row .committed)) = .ok r ∧
      DeletesOnly category screen.realm r.store := by
  obtain ⟨hconsistent, hloaded⟩ := hs
  obtain ⟨q, hq, _⟩ := Categories.deleteBlock_ok hloaded hstep hrow
  have hhandle : Categories.handle screen (.delete row .committed) = .ok q := by
    show Categories.commitDelete row .committed screen = _
    rw [Categories.commitDelete_of_row hloaded hrow]
    unfold Categories.realmWrite write
    rw [hq]
    rfl
  refine ⟨.categories q, ?_, ?_⟩
  · simp only [handle, hhandle]
  · show DeletesOnly category screen.realm q.realm
    rw [deleteBlock_realm hq]
    exact deleteCategory_deletesOnly hconsistent (List.mem_of_getElem? hrow)

theorem toggle_togglesOnly {below : Categories.CategoryViewController Date}
    {screen : TodoList.TodoListViewController Date} {row : ℕ} {item : ObjectId × Item Date}
    (hstep : InStep contains (.todoList below screen))
    (hrow : (screen.displayed contains)[row]? = some item) :
    ∃ r, handle contains (.todoList below screen) (.todoList (.didSelectRow row .committed)) =
        .ok r ∧ TogglesOnly item.1 screen.realm r.store := by
  unfold TodoList.TodoListViewController.displayed at hrow
  cases hresults : screen.todoItems with
  | none =>
    rw [hresults] at hrow
    cases hrow
  | some results =>
    rw [hresults] at hrow
    have hhandle : TodoList.handle contains screen (.didSelectRow row .committed) = _ :=
      TodoList.didSelectRowAt_committed hstep.2 hresults hrow
    refine ⟨.todoList below { screen with realm := screen.realm.toggleDone item.1 }, ?_,
      toggleDone_togglesOnly screen.realm item.1⟩
    simp only [handle, hhandle]

/-- In every run of delivered events whose transactions commit, nothing traps, and in each
state reached the items are in exactly one category each; deleting a category then takes
exactly its items with it, and toggling changes `isDone` of one item. -/
theorem referential_integrity (contains : String → String → Bool) (events : List (Event Date))
    (hdelivered : AtEach Delivered (handle contains) firstLaunch events)
    (hcommitted : ∀ e ∈ events, Committed e) :
    ∃ app, exec (handle contains) firstLaunch events = .ok app ∧ Integrity app.store ∧
      (∀ screen row category, app = .categories screen →
        screen.realm.categories.rows[row]? = some category →
        ∃ r, handle contains app (.categories (.delete row .committed)) = .ok r ∧
          DeletesOnly category app.store r.store) ∧
      ∀ below screen row item, app = .todoList below screen →
        (screen.displayed contains)[row]? = some item →
        ∃ r, handle contains app (.todoList (.didSelectRow row .committed)) = .ok r ∧
          TogglesOnly item.1 app.store r.store := by
  have hrun : ∃ app, exec (handle contains) firstLaunch events = .ok app ∧
      Safe app ∧ InStep contains app := by
    refine exec_safe (I := fun _ app => Safe app ∧ InStep contains app) ⟨firstLaunch_safe, rfl⟩ ?_
      (atEach_and hdelivered (atEach_of_mem (C := fun _ e => Committed e)
        (fun e he _ => hcommitted e he) _))
    intro es app e hin he
    obtain ⟨r, hr, hstep⟩ := handle_committed hin.1 hin.2 he.1 he.2
    exact ⟨r, hr, handle_safe hin.1 hr, hstep⟩
  obtain ⟨app, happ, hsafe, hstep⟩ := hrun
  refine ⟨app, happ, (safe_consistent hsafe).integrity, ?_, ?_⟩
  · intro screen row category hscreen hrow
    subst hscreen
    exact delete_deletesOnly hsafe hstep hrow
  · intro below screen row item hscreen hrow
    subst hscreen
    exact toggle_togglesOnly hstep hrow

/- Home with milk and eggs in it, the milk ticked off, and home deleted. -/
theorem home_listed_and_deleted :
    ∃ app, exec (handle TodoList.containsFolded) (firstLaunch : App ℕ)
        [.categories (.addCategory "Home" "3498DB" .committed), .goToItems 0,
          .todoList (.addItem "Buy milk" 10 .committed), .todoList (.addItem "Sell eggs" 5 .committed),
          .todoList (.didSelectRow 1 .committed), .back, .categories (.delete 0 .committed)] =
        .ok app ∧ Integrity app.store ∧
      (∀ screen row category, app = .categories screen →
        screen.realm.categories.rows[row]? = some category →
        ∃ r, handle TodoList.containsFolded app (.categories (.delete row .committed)) = .ok r ∧
          DeletesOnly category app.store r.store) ∧
      ∀ below screen row item, app = .todoList below screen →
        (screen.displayed TodoList.containsFolded)[row]? = some item →
        ∃ r, handle TodoList.containsFolded app (.todoList (.didSelectRow row .committed)) = .ok r ∧
          TogglesOnly item.1 app.store r.store :=
  referential_integrity TodoList.containsFolded _ (by decide +kernel) (by decide +kernel)

end App

end PracticeApps.Todoey
