import Mathlib.Tactic.Linarith
import PracticeApps.FlashChat.WelcomeViewController

/-!
# The title of the welcome screen

Each appearance schedules the letters of the title, and nothing takes back those
of an earlier appearance. When the label is emptied with letters still pending,
these are appended in addition to the title, and the text is too long.
-/

namespace PracticeApps.FlashChat.Welcome
open EventMachine

variable {titleText : List Letter} {storyboardText : List Char}

/-! ### The history -/

/- The events before the view was last about to appear. -/
def beforeReset (events : List Event) : List Event :=
  ((events.reverse.dropWhile fun e => e.callback ≠ .viewWillAppear).drop 1).reverse

theorem beforeReset_concat (events : List Event) (e : Event) :
    beforeReset (events ++ [e]) =
      if e.callback = .viewWillAppear then events else beforeReset events := by
  unfold beforeReset
  rw [List.reverse_append, List.reverse_singleton, List.singleton_append, List.dropWhile_cons]
  by_cases h : e.callback = .viewWillAppear <;> simp [h]

/-- Letters of an earlier appearance were pending when the label was last emptied. -/
def PendingAtReset (titleText : List Letter) (storyboardText : List Char) (events : List Event) :
    Prop :=
  ∃ q, exec (handle titleText) (launch storyboardText) (beforeReset events) = .ok q ∧ q.timers ≠ []

/-! ### Counting the letters -/

/- How many scalars pending timers will append. -/
def pendingLength (timers : List Timer) : ℕ := (timers.map fun t => t.letter.scalars.length).sum

theorem pendingLength_append (timers timers' : List Timer) :
    pendingLength (timers ++ timers') = pendingLength timers + pendingLength timers' := by
  simp [pendingLength]

theorem pendingLength_erase {timers : List Timer} {timer : Timer} (h : timer ∈ timers) :
    timer.letter.scalars.length + pendingLength (timers.erase timer) = pendingLength timers := by
  have hsum := ((List.perm_cons_erase h).map fun t : Timer => t.letter.scalars.length).sum_nat
  rw [List.map_cons, List.sum_cons] at hsum
  exact hsum.symm

theorem pendingLength_letterTimers (now charIndex : ℚ) (letters : List Letter) :
    pendingLength (letterTimers now charIndex letters) = (text letters).length := by
  induction letters generalizing charIndex with
  | nil => rfl
  | cons letter letters ih =>
    have h := ih (charIndex + 1)
    unfold pendingLength text at h ⊢
    rw [letterTimers, List.map_cons, List.sum_cons, h, List.flatMap_cons, List.length_append]

theorem pendingLength_pos {timers : List Timer} (h : timers ≠ []) : 0 < pendingLength timers := by
  cases timers with
  | nil => exact absurd rfl h
  | cons timer timers =>
    have hletter := List.length_pos_iff.mpr timer.letter.nonempty
    unfold pendingLength
    rw [List.map_cons, List.sum_cons]
    omega

/-! ### The letters of one appearance fire in order -/

theorem timeInterval_lt {a b : ℚ} (ha : 0 ≤ a) (hab : a + 1 / 10 ≤ b) :
    timeInterval a < timeInterval b := by
  have hb : ¬ b ≤ 0 := by linarith
  unfold timeInterval
  rw [if_neg hb]
  split <;> linarith

theorem letterTimers_later {now first : ℚ} (hfirst : 0 ≤ first) {charIndex : ℚ}
    (hindex : first + 1 ≤ charIndex) (letters : List Letter) :
    ∀ timer ∈ letterTimers now charIndex letters,
      now + timeInterval (1 / 10 * first) < timer.fireDate := by
  induction letters generalizing charIndex with
  | nil =>
    intro timer h
    cases h
  | cons letter letters ih =>
    intro timer h
    rw [letterTimers, List.mem_cons] at h
    rcases h with rfl | h
    · have hlt := timeInterval_lt (a := 1 / 10 * first) (b := 1 / 10 * charIndex)
        (by linarith) (by linarith)
      show _ < now + timeInterval (1 / 10 * charIndex)
      linarith
    · exact ih (by linarith) timer h

/- The timer that is due first is the one of the first letter. -/
theorem letterTimers_first {now charIndex : ℚ} (hindex : 0 ≤ charIndex) {letter : Letter}
    {letters : List Letter} {timer : Timer}
    (hmem : timer ∈ letterTimers now charIndex (letter :: letters))
    (hfirst : ∀ other ∈ letterTimers now charIndex (letter :: letters),
      timer.fireDate ≤ other.fireDate) :
    timer = ⟨now + timeInterval (1 / 10 * charIndex), letter⟩ := by
  rw [letterTimers] at hmem hfirst
  rcases List.mem_cons.mp hmem with heq | hrest
  · exact heq
  · have hlater := letterTimers_later hindex (le_refl (charIndex + 1)) letters timer hrest
    have hle := hfirst _ List.mem_cons_self
    exact absurd hle (not_le.mpr hlater)

/-! ### Since the label was emptied -/

/- No appearance since: whatever fires belongs to an earlier one. -/
structure Blank (before : List Timer) (s : WelcomeViewController) : Prop where
  view : s.view ≠ .appeared
  letters : s.titleLabel.length + pendingLength s.timers = pendingLength before
  clean : before = [] → s.titleLabel = [] ∧ s.timers = []

/- One appearance since: its letters come on top of the earlier ones. -/
structure Titled (titleText : List Letter) (before : List Timer) (s : WelcomeViewController) :
    Prop where
  view : s.view ≠ .appearing
  letters : s.titleLabel.length + pendingLength s.timers =
    pendingLength before + (text titleText).length
  clean : before = [] → ∃ shown rest now charIndex, 0 ≤ charIndex ∧ titleText = shown ++ rest ∧
    s.titleLabel = text shown ∧ s.timers = letterTimers now charIndex rest

def SinceReset (titleText : List Letter) (before : List Timer) (s : WelcomeViewController) : Prop :=
  Blank before s ∨ Titled titleText before s

/- What touches neither the label nor the timers, and shows no view. -/
theorem sinceReset_view {before : List Timer} {s r : WelcomeViewController}
    (h : SinceReset titleText before s) (hlabel : r.titleLabel = s.titleLabel)
    (htimers : r.timers = s.timers)
    (hview : r.view = s.view ∨ r.view = .disappeared ∨ r.view = .disappearing) :
    SinceReset titleText before r := by
  rcases h with h | h
  · refine Or.inl ⟨?_, ?_, ?_⟩
    · rcases hview with hview | hview | hview <;> simp [hview, h.view]
    · rw [hlabel, htimers]
      exact h.letters
    · rw [hlabel, htimers]
      exact h.clean
  · refine Or.inr ⟨?_, ?_, ?_⟩
    · rcases hview with hview | hview | hview <;> simp [hview, h.view]
    · rw [hlabel, htimers]
      exact h.letters
    · rw [hlabel, htimers]
      exact h.clean

theorem viewWillAppear_sinceReset (s : WelcomeViewController) :
    SinceReset titleText s.timers (viewWillAppear s) := by
  refine Or.inl ⟨by simp [viewWillAppear], ?_, fun hnone => ⟨rfl, hnone⟩⟩
  simp [viewWillAppear]

theorem viewDidAppear_sinceReset {before : List Timer} {s : WelcomeViewController}
    (h : SinceReset titleText before s) (hview : s.view = .appearing) :
    SinceReset titleText before (viewDidAppear titleText s) := by
  rcases h with h | h
  · have hletters := h.letters
    refine Or.inr ⟨by simp [viewDidAppear, setupTitleAnimation], ?_, ?_⟩
    · show s.titleLabel.length + pendingLength (s.timers ++ letterTimers s.clock 0 titleText) = _
      rw [pendingLength_append, pendingLength_letterTimers]
      omega
    · intro hnone
      obtain ⟨hlabel, htimers⟩ := h.clean hnone
      refine ⟨[], titleText, s.clock, 0, le_refl 0, rfl, hlabel, ?_⟩
      show s.timers ++ _ = _
      rw [htimers, List.nil_append]
  · exact absurd hview h.view

theorem timerFires_sinceReset {before : List Timer} {s : WelcomeViewController} {timer : Timer}
    (h : SinceReset titleText before s) (hmem : timer ∈ s.timers)
    (hfirst : ∀ other ∈ s.timers, timer.fireDate ≤ other.fireDate) :
    SinceReset titleText before (timerFires timer s) := by
  have hcount := pendingLength_erase hmem
  have hlength : (timerFires timer s).titleLabel.length + pendingLength (timerFires timer s).timers =
      s.titleLabel.length + pendingLength s.timers := by
    show (s.titleLabel ++ timer.letter.scalars).length + pendingLength (s.timers.erase timer) = _
    rw [List.length_append]
    omega
  rcases h with h | h
  · refine Or.inl ⟨h.view, hlength.trans h.letters, ?_⟩
    intro hnone
    rw [(h.clean hnone).2] at hmem
    cases hmem
  · refine Or.inr ⟨h.view, hlength.trans h.letters, ?_⟩
    intro hnone
    obtain ⟨shown, rest, now, charIndex, hindex, htitle, hlabel, htimers⟩ := h.clean hnone
    rw [htimers] at hmem hfirst
    cases rest with
    | nil => cases hmem
    | cons letter rest =>
      have htimer := letterTimers_first hindex hmem hfirst
      refine ⟨shown ++ [letter], rest, now, charIndex + 1, by linarith, by simp [htitle], ?_, ?_⟩
      · show s.titleLabel ++ timer.letter.scalars = _
        rw [hlabel, htimer]
        simp [text]
      · show s.timers.erase timer = _
        rw [htimers, letterTimers, htimer, List.erase_cons_head]

theorem handle_sinceReset {before : List Timer} {s : WelcomeViewController} {e : Event}
    (h : SinceReset titleText before s) (he : Delivered s e)
    (hreset : e.callback ≠ .viewWillAppear) :
    ∃ r, handle titleText s e = .ok r ∧ SinceReset titleText before r := by
  obtain ⟨now, callback⟩ := e
  obtain ⟨_, henabled⟩ := he
  have hclock : SinceReset titleText before { s with clock := now } :=
    sinceReset_view h rfl rfl (Or.inl rfl)
  cases callback with
  | viewWillAppear => exact absurd rfl hreset
  | viewDidAppear => exact ⟨_, rfl, viewDidAppear_sinceReset hclock henabled⟩
  | viewWillDisappear => exact ⟨_, rfl, sinceReset_view hclock rfl rfl (Or.inr (Or.inr rfl))⟩
  | viewDidDisappear => exact ⟨_, rfl, sinceReset_view hclock rfl rfl (Or.inr (Or.inl rfl))⟩
  | timerFires timer =>
    obtain ⟨hmem, _, hfirst⟩ := henabled
    exact ⟨_, rfl, timerFires_sinceReset hclock hmem hfirst⟩

/-! ### Runs -/

/- Before the first appearance the storyboard's text is there and no timer. -/
structure Reached (titleText : List Letter) (storyboardText : List Char) (events : List Event)
    (s : WelcomeViewController) : Prop where
  run : exec (handle titleText) (launch storyboardText) events = .ok s
  sinceReset : (events = [] ∧ s = launch storyboardText) ∨
    ∃ q, exec (handle titleText) (launch storyboardText) (beforeReset events) = .ok q ∧
      SinceReset titleText q.timers s

/- A view that never appeared can only appear. -/
theorem launch_enabled {now : ℚ} {callback : Callback}
    (h : Enabled (launch storyboardText) now callback) : callback = .viewWillAppear := by
  cases callback with
  | viewWillAppear => rfl
  | viewDidAppear => cases h
  | viewWillDisappear => rcases h with h | h <;> cases h
  | viewDidDisappear => cases h
  | timerFires timer => cases h.1

theorem reached_step {events : List Event} {s : WelcomeViewController} {e : Event}
    (h : Reached titleText storyboardText events s) (he : Delivered s e) :
    ∃ r, handle titleText s e = .ok r ∧ Reached titleText storyboardText (events ++ [e]) r := by
  obtain ⟨hrun, hsince⟩ := h
  by_cases hreset : e.callback = .viewWillAppear
  · have hr : handle titleText s e = .ok (viewWillAppear { s with clock := e.now }) := by
      unfold handle
      rw [hreset]
    refine ⟨_, hr, ?_, Or.inr ⟨s, ?_, viewWillAppear_sinceReset { s with clock := e.now }⟩⟩
    · rw [exec_concat_ok e hrun, hr]
    · rw [beforeReset_concat, if_pos hreset]
      exact hrun
  · rcases hsince with ⟨hnone, hlaunch⟩ | ⟨q, hq, hsince⟩
    · rw [hlaunch] at he
      exact absurd (launch_enabled he.2) hreset
    · obtain ⟨r, hr, hsince'⟩ := handle_sinceReset hsince he hreset
      refine ⟨r, hr, ?_, Or.inr ⟨q, ?_, hsince'⟩⟩
      · rw [exec_concat_ok e hrun, hr]
      · rw [beforeReset_concat, if_neg hreset]
        exact hq

theorem run_reached {events : List Event}
    (hdelivered : AtEach Delivered (handle titleText) (launch storyboardText) events) :
    ∃ s, Reached titleText storyboardText events s := by
  obtain ⟨s, _, hs⟩ := exec_safe (I := Reached titleText storyboardText)
    ⟨rfl, Or.inl ⟨rfl, rfl⟩⟩ (fun _ _ _ hs he => reached_step hs he) hdelivered
  exact ⟨s, hs⟩

/-- For every run of callbacks of the view and of timers: once the view is visible and no
timer is pending, the label is the title exactly when no timer was pending at the last
`viewWillAppear`. -/
theorem title_ends_as_name_iff (titleText : List Letter) (storyboardText : List Char)
    (events : List Event)
    (hdelivered : AtEach Delivered (handle titleText) (launch storyboardText) events) :
    ∃ s, exec (handle titleText) (launch storyboardText) events = .ok s ∧
      (s.view = .appeared → s.timers = [] →
        (s.titleLabel = text titleText ↔ ¬ PendingAtReset titleText storyboardText events)) := by
  obtain ⟨s, hrun, hsince⟩ := run_reached hdelivered
  refine ⟨s, hrun, ?_⟩
  intro hview htimers
  rcases hsince with ⟨_, hlaunch⟩ | ⟨q, hq, hsince⟩
  · rw [hlaunch] at hview
    cases hview
  · rcases hsince with hblank | htitled
    · exact absurd hview hblank.view
    · have hletters := htitled.letters
      rw [htimers] at hletters
      constructor
      · intro hlabel hpending
        obtain ⟨q', hq', hne⟩ := hpending
        rw [hq] at hq'
        cases hq'
        have hpos := pendingLength_pos hne
        rw [hlabel] at hletters
        have hnone : pendingLength [] = 0 := rfl
        omega
      · intro hclean
        have hnone : q.timers = [] := by
          by_contra hne
          exact hclean ⟨q, hq, hne⟩
        obtain ⟨shown, rest, now, charIndex, _, htitle, hlabel, hrest⟩ := htitled.clean hnone
        rw [htimers] at hrest
        cases rest with
        | nil => rw [hlabel, htitle, List.append_nil]
        | cons letter rest => cases hrest

/- Timers that fire at their dates. -/
def firing (timers : List Timer) : List Event :=
  timers.map fun timer => ⟨timer.fireDate, .timerFires timer⟩

/- A first appearance at half a second, seen to its end. -/
def firstAppearance : List Event :=
  ⟨0, .viewWillAppear⟩ :: ⟨1 / 2, .viewDidAppear⟩ :: firing (letterTimers (1 / 2) 0 appName)

theorem first_appearance_ends_as_name :
    ∃ s, exec (handle appName) (launch (text appName)) firstAppearance = .ok s ∧
      s.titleLabel = text appName := by
  obtain ⟨s, hs, hiff⟩ :=
    title_ends_as_name_iff appName (text appName) firstAppearance (by decide +kernel)
  have hend : (exec (handle appName) (launch (text appName)) firstAppearance).map
      (fun s => (s.view, s.timers)) = .ok (.appeared, []) := by decide +kernel
  rw [hs] at hend
  have hseen := Except.ok.inj hend
  have hreset : beforeReset firstAppearance = [] := by decide +kernel
  refine ⟨s, hs, (hiff (congrArg Prod.fst hseen) (congrArg Prod.snd hseen)).mpr ?_⟩
  rintro ⟨q, hq, hpending⟩
  rw [hreset] at hq
  cases hq
  exact hpending rfl

/- The screen is left after three letters and shown again after five: the other five come
on top of the new title. -/
def quickReturn : List Event :=
  let first := letterTimers (1 / 2) 0 appName
  [⟨0, .viewWillAppear⟩, ⟨1 / 2, .viewDidAppear⟩] ++ firing (first.take 3) ++
    [⟨3 / 4, .viewWillDisappear⟩] ++ firing ((first.drop 3).take 2) ++
    [⟨19 / 20, .viewDidDisappear⟩, ⟨49 / 50, .viewWillAppear⟩] ++ firing (first.drop 5) ++
    [⟨29 / 20, .viewDidAppear⟩] ++ firing (letterTimers (29 / 20) 0 appName)

theorem quick_return_ends_otherwise :
    AtEach Delivered (handle appName) (launch (text appName)) quickReturn ∧
      ∃ s, exec (handle appName) (launch (text appName)) quickReturn = .ok s ∧
        s.view = .appeared ∧ s.timers = [] ∧
        s.titleLabel = ['h', 'C', 'h', 'a', 't'] ++ text appName ∧ s.titleLabel ≠ text appName := by
  have hrun : exec (handle appName) (launch (text appName)) quickReturn =
      .ok ⟨['h', 'C', 'h', 'a', 't'] ++ text appName, true, .appeared, [], 47 / 20⟩ := by
    decide +kernel
  exact ⟨by decide +kernel, _, hrun, rfl, rfl, rfl, by decide⟩

end PracticeApps.FlashChat.Welcome
