import PracticeApps.FlashChat.ChatViewController

/-!
# Scrolling to the last message

Every block scrolls to the last of the messages there are when it runs. These
are the messages of the latest snapshot, so a block is safe if that snapshot
had a document that decodes.
-/

namespace PracticeApps.FlashChat
open EventMachine TableView

/-! ### Snapshots -/

/- What a snapshot makes of the messages, if it changes them at all. -/
def Snapshot.messages (snapshot : Snapshot) : Option (List Message) :=
  match snapshot.error with
  | some _ => none
  | none => snapshot.documents.map parsedMessages

theorem snapshotListener_none {snapshot : Snapshot} (s : ChatViewController)
    (h : snapshot.messages = none) : snapshotListener snapshot s = s := by
  obtain ⟨documents, error⟩ := snapshot
  cases error with
  | some _ => rfl
  | none =>
    cases documents with
    | none => rfl
    | some documents => cases h

theorem snapshotListener_some {snapshot : Snapshot} (s : ChatViewController)
    {messages : List Message} (h : snapshot.messages = some messages) :
    snapshotListener snapshot s =
      { s with messages := messages,
               mainQueue := s.mainQueue ++ [.didSetMessages, .didSetMessages] } := by
  obtain ⟨documents, error⟩ := snapshot
  cases error with
  | some _ => cases h
  | none =>
    cases documents with
    | none => cases h
    | some documents =>
      -- `messages` is set twice, to the empty list first
      have hm : parsedMessages documents = messages := Option.some.inj h
      simp only [snapshotListener, setMessages, hm, List.append_assoc, List.singleton_append]

theorem snapshotListener_messages (snapshot : Snapshot) (s : ChatViewController) :
    (snapshotListener snapshot s).messages = snapshot.messages.getD s.messages := by
  cases hm : snapshot.messages with
  | none => rw [snapshotListener_none s hm, Option.getD_none]
  | some messages => rw [snapshotListener_some s hm, Option.getD_some]

/-! ### When every scroll finds its row -/

def RowFound : Except Trap ChatViewController → Prop
  | .ok _ => True
  | .error _ => False

/- The block that runs finds a message. -/
def ScrollSafe (s : ChatViewController) : Event → Prop
  | .snapshot _ => True
  | .runBlock => s.messages ≠ []

/- Each block finds a message in the latest snapshot before it. -/
def blocksFind (messages : List Message) : List Event → Bool
  | [] => true
  | .snapshot snapshot :: events => blocksFind (snapshot.messages.getD messages) events
  | .runBlock :: events => !messages.isEmpty && blocksFind messages events

theorem handle_runBlock_empty {s : ChatViewController} (h : s.mainQueue = []) :
    handle s .runBlock = .ok s := by
  unfold handle
  dsimp only
  rw [h]

theorem handle_runBlock_messages {s r : ChatViewController} (h : handle s .runBlock = .ok r) :
    r.messages = s.messages := by
  unfold handle at h
  dsimp only at h
  split at h
  · cases h
    rfl
  · exact (run_messages h).1

theorem handle_rowFound_iff {s : ChatViewController} {e : Event} (he : Delivered s e) :
    RowFound (handle s e) ↔ ScrollSafe s e := by
  cases e with
  | snapshot snapshot => exact iff_of_true trivial trivial
  | runBlock =>
    unfold handle ScrollSafe
    dsimp only
    cases hq : s.mainQueue with
    | nil => exact absurd hq he
    | cons block mainQueue =>
      rw [← lastRow_inRange_iff]
      have hrun := run_ok_iff { s with mainQueue := mainQueue } block
      rw [← hrun]
      dsimp only
      cases block.run { s with mainQueue := mainQueue } with
      | ok r => exact iff_of_true trivial ⟨r, rfl⟩
      | error t => exact iff_of_false id (by simp)

theorem rowFound_iff_atEach {events : List Event}
    (h : AtEach Delivered handle viewDidLoad events) :
    Accepted RowFound handle viewDidLoad events ↔ AtEach ScrollSafe handle viewDidLoad events := by
  refine accepted_iff_atEach (I := fun _ => True) trivial trivial ?_
    (fun _ _ _ _ _ _ _ _ => trivial) h
  intro s e _ _ he
  exact handle_rowFound_iff he

/- The messages follow the snapshots, so the condition can be read off the events. -/
theorem scrollSafe_iff_blocksFind (s : ChatViewController) (events : List Event) :
    AtEach ScrollSafe handle s events ↔ blocksFind s.messages events = true := by
  induction events generalizing s with
  | nil => exact iff_of_true trivial rfl
  | cons e events ih =>
    cases e with
    | snapshot snapshot =>
      have hstep : handle s (.snapshot snapshot) = .ok (snapshotListener snapshot s) := rfl
      rw [atEach_cons_ok events hstep, ih, snapshotListener_messages]
      exact and_iff_right trivial
    | runBlock =>
      have hsafe : ScrollSafe s .runBlock ↔ (!s.messages.isEmpty) = true := by
        unfold ScrollSafe
        simp
      unfold blocksFind
      rw [Bool.and_eq_true, ← hsafe]
      cases hstep : handle s .runBlock with
      | ok r =>
        rw [atEach_cons_ok events hstep, ih, handle_runBlock_messages hstep]
      | error t =>
        rw [atEach_cons_error events hstep]
        constructor
        · intro h
          have hqueue : Delivered s .runBlock := by
            intro hempty
            rw [handle_runBlock_empty hempty] at hstep
            cases hstep
          have hfound := (handle_rowFound_iff hqueue).mpr h
          rw [hstep] at hfound
          exact hfound.elim
        · exact And.left

/-- Over every sequence of snapshots and every order of the queued blocks, each row
scrolled to is there exactly when each block that runs finds a document that decodes
in the latest snapshot. -/
theorem scroll_row_found_iff (events : List Event)
    (hdelivered : AtEach Delivered handle viewDidLoad events) :
    Accepted RowFound handle viewDidLoad events ↔ blocksFind [] events = true := by
  rw [rowFound_iff_atEach hdelivered, scrollSafe_iff_blocksFind]
  rfl

/- Two messages arrive, then a third; the blocks run late. -/
theorem two_then_three_messages :
    Accepted RowFound handle viewDidLoad
      [.snapshot ⟨some [sentData "a" "hi" 1, sentData "b" "hey" 2], none⟩, .runBlock,
        .snapshot ⟨some [sentData "a" "hi" 1, sentData "b" "hey" 2, sentData "a" "bye" 3], none⟩,
        .runBlock, .runBlock, .runBlock] :=
  (scroll_row_found_iff _ (by decide)).mpr (by decide)

/- A collection without messages: the first block scrolls to row -1. -/
theorem no_messages_yet :
    ¬ Accepted RowFound handle viewDidLoad [.snapshot ⟨some [], none⟩, .runBlock] := by
  intro h
  exact h _ (List.prefix_refl _)

/-! ### Every order of the blocks -/

def Event.snapshots : Event → List Snapshot
  | .snapshot answer => [answer]
  | .runBlock => []

/- A queued block comes after a snapshot. -/
def QueuedFinds (s : ChatViewController) : Prop := s.mainQueue ≠ [] → s.messages ≠ []

theorem handle_queuedFinds {s r : ChatViewController} {e : Event} (hs : QueuedFinds s)
    (he : ∀ snapshot ∈ e.snapshots, snapshot.messages ≠ some []) (hr : handle s e = .ok r) :
    QueuedFinds r := by
  cases e with
  | snapshot snapshot =>
    cases hr
    have hne : snapshot.messages ≠ some [] := he snapshot List.mem_cons_self
    cases hm : snapshot.messages with
    | none =>
      rw [snapshotListener_none s hm]
      exact hs
    | some messages =>
      rw [snapshotListener_some s hm]
      intro _ hnil
      have hnil : messages = [] := hnil
      rw [hm, hnil] at hne
      exact hne rfl
  | runBlock =>
    intro hqueue
    rw [handle_runBlock_messages hr]
    apply hs
    intro hempty
    rw [handle_runBlock_empty hempty] at hr
    cases hr
    exact hqueue hempty

theorem exec_snapshots (s : ChatViewController) (snapshots : List Snapshot) :
    ∃ r, exec handle s (snapshots.map .snapshot) = .ok r := by
  induction snapshots generalizing s with
  | nil => exact ⟨s, rfl⟩
  | cons snapshot snapshots ih => exact ih (snapshotListener snapshot s)

theorem delivered_snapshots (s : ChatViewController) (snapshots : List Snapshot) :
    AtEach Delivered handle s (snapshots.map .snapshot) := by
  apply atEach_of_mem
  intro e he r
  obtain ⟨snapshot, _, hsnapshot⟩ := List.mem_map.mp he
  rw [← hsnapshot]
  trivial

/- The order in which a block runs right after one of the snapshots. -/
def blockAfter (before : List Snapshot) (snapshot : Snapshot) (after : List Snapshot) :
    List Event :=
  before.map .snapshot ++ [.snapshot snapshot] ++ [.runBlock] ++ after.map .snapshot

theorem blockAfter_snapshots (before : List Snapshot) (snapshot : Snapshot)
    (after : List Snapshot) :
    (blockAfter before snapshot after).flatMap Event.snapshots = before ++ snapshot :: after := by
  simp [blockAfter, List.flatMap_append, List.flatMap_map, Event.snapshots]

theorem blockAfter_unsafe (before after : List Snapshot) {snapshot : Snapshot}
    (hempty : snapshot.messages = some []) :
    AtEach Delivered handle viewDidLoad (blockAfter before snapshot after) ∧
      ¬ Accepted RowFound handle viewDidLoad (blockAfter before snapshot after) := by
  obtain ⟨q, hq⟩ := exec_snapshots viewDidLoad before
  have hrun : exec handle viewDidLoad (before.map .snapshot ++ [.snapshot snapshot]) =
      .ok (snapshotListener snapshot q) := by
    rw [exec_concat_ok _ hq]
    rfl
  have hqueue : Delivered (snapshotListener snapshot q) .runBlock := by
    rw [snapshotListener_some q hempty]
    simp [Delivered]
  constructor
  · refine atEach_append.mpr ⟨atEach_concat.mpr ⟨atEach_concat.mpr
      ⟨delivered_snapshots _ before, fun _ _ => trivial⟩, ?_⟩, fun r _ => delivered_snapshots r after⟩
    intro r hr
    rw [hrun] at hr
    cases hr
    exact hqueue
  · intro h
    have hfound := h _ (List.prefix_append _ _)
    rw [exec_concat_ok _ hrun, handle_rowFound_iff hqueue, snapshotListener_some q hempty] at hfound
    exact hfound rfl

/-- For a sequence of snapshots, every order of the blocks is safe exactly when no
snapshot leaves the chat without messages. -/
theorem every_order_safe_iff (snapshots : List Snapshot) :
    (∀ events, events.flatMap Event.snapshots = snapshots →
        AtEach Delivered handle viewDidLoad events →
        Accepted RowFound handle viewDidLoad events) ↔
      ∀ snapshot ∈ snapshots, snapshot.messages ≠ some [] := by
  constructor
  · intro h snapshot hmem hempty
    obtain ⟨before, after, hsplit⟩ := List.append_of_mem hmem
    obtain ⟨hdelivered, hunsafe⟩ := blockAfter_unsafe before after hempty
    apply hunsafe
    apply h
    · rw [blockAfter_snapshots, hsplit]
    · exact hdelivered
  · intro h events hevents hdelivered
    rw [rowFound_iff_atEach hdelivered]
    have hnonempty : AtEach (fun _ e => ∀ snapshot ∈ Event.snapshots e, snapshot.messages ≠ some [])
        handle viewDidLoad events := by
      apply atEach_of_mem
      intro e he _ snapshot hs
      apply h
      rw [← hevents]
      exact List.mem_flatMap.mpr ⟨e, he, hs⟩
    refine atEach_of_invariant (I := QueuedFinds) (fun h => absurd rfl h) ?_ ?_
      (atEach_and hdelivered hnonempty)
    · intro s e r hs he hr
      exact handle_queuedFinds hs he.2 hr
    · intro s e hs he
      cases e with
      | snapshot snapshot => trivial
      | runBlock => exact hs he.1

end PracticeApps.FlashChat
