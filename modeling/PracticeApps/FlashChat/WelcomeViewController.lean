import Mathlib.Algebra.Order.Field.Rat
import PracticeApps.Library.EventMachine

/-!
# WelcomeViewController.swift, Constants.swift

The life cycle of the view and the timers of its title. A timer has the date at
which it is due; the run loop fires due timers in the order of their dates, one
at a time between the other events. Nothing here traps.
-/

namespace PracticeApps.FlashChat.Welcome
open EventMachine

/-- A `Character`: one or more scalars shown as one letter. -/
structure Letter where
  scalars : List Char
  nonempty : scalars ≠ []
  deriving DecidableEq

def text (letters : List Letter) : List Char := letters.flatMap Letter.scalars

/- `K.appName` -/
def appName : List Letter :=
  ⟨['⚡', '\uFE0F'], by simp⟩ :: ['F', 'l', 'a', 's', 'h', 'C', 'h', 'a', 't'].map fun c => ⟨[c], by simp⟩

structure Timer where
  fireDate : ℚ
  letter : Letter
  deriving DecidableEq

/- `Timer.scheduledTimer` takes a tenth of a millisecond in the place of no interval. -/
def timeInterval (seconds : ℚ) : ℚ := if seconds ≤ 0 then 1 / 10000 else seconds

inductive ViewState where
  | disappeared
  | appearing
  | appeared
  | disappearing
  deriving DecidableEq, Repr

/- `clock` is the time of the last event. -/
structure WelcomeViewController where
  titleLabel : List Char
  isNavigationBarHidden : Bool
  view : ViewState
  timers : List Timer
  clock : ℚ
  deriving DecidableEq

def viewWillAppear (s : WelcomeViewController) : WelcomeViewController :=
  { s with isNavigationBarHidden := true, titleLabel := [], view := .appearing }

def viewWillDisappear (s : WelcomeViewController) : WelcomeViewController :=
  { s with isNavigationBarHidden := false, view := .disappearing }

def viewDidDisappear (s : WelcomeViewController) : WelcomeViewController :=
  { s with view := .disappeared }

/- The loop of `setupTitleAnimation`, from the letter at `charIndex` on. -/
def letterTimers (now : ℚ) (charIndex : ℚ) : List Letter → List Timer
  | [] => []
  | letter :: letters =>
    ⟨now + timeInterval (1 / 10 * charIndex), letter⟩ :: letterTimers now (charIndex + 1) letters

def setupTitleAnimation (titleText : List Letter) (s : WelcomeViewController) :
    WelcomeViewController :=
  { s with timers := s.timers ++ letterTimers s.clock 0 titleText }

def viewDidAppear (titleText : List Letter) (s : WelcomeViewController) : WelcomeViewController :=
  setupTitleAnimation titleText { s with view := .appeared }

def timerFires (timer : Timer) (s : WelcomeViewController) : WelcomeViewController :=
  { s with titleLabel := s.titleLabel ++ timer.letter.scalars, timers := s.timers.erase timer }

/- The label as it is in Main.storyboard. -/
def launch (storyboardText : List Char) : WelcomeViewController :=
  { titleLabel := storyboardText, isNavigationBarHidden := false, view := .disappeared, timers := [],
    clock := 0 }

/-! ### Runs -/

inductive Callback where
  | viewWillAppear
  | viewDidAppear
  | viewWillDisappear
  | viewDidDisappear
  | timerFires (timer : Timer)
  deriving DecidableEq

structure Event where
  now : ℚ
  callback : Callback
  deriving DecidableEq

def handle (titleText : List Letter) (s : WelcomeViewController) (e : Event) :
    Except Empty WelcomeViewController :=
  let s := { s with clock := e.now }
  match e.callback with
  | .viewWillAppear => .ok (viewWillAppear s)
  | .viewDidAppear => .ok (viewDidAppear titleText s)
  | .viewWillDisappear => .ok (viewWillDisappear s)
  | .viewDidDisappear => .ok (viewDidDisappear s)
  | .timerFires timer => .ok (timerFires timer s)

/- A transition may be taken back: a view that is appearing may disappear again without
having appeared, and the other way round. A timer fires once it is due and no pending
timer is due before it. -/
def Enabled (s : WelcomeViewController) (now : ℚ) : Callback → Prop
  | .viewWillAppear => s.view = .disappeared ∨ s.view = .disappearing
  | .viewDidAppear => s.view = .appearing
  | .viewWillDisappear => s.view = .appeared ∨ s.view = .appearing
  | .viewDidDisappear => s.view = .disappearing
  | .timerFires timer => timer ∈ s.timers ∧ timer.fireDate ≤ now ∧
      ∀ other ∈ s.timers, timer.fireDate ≤ other.fireDate

instance (s : WelcomeViewController) (now : ℚ) (callback : Callback) :
    Decidable (Enabled s now callback) := by
  cases callback <;> unfold Enabled <;> infer_instance

def Delivered (s : WelcomeViewController) (e : Event) : Prop :=
  s.clock ≤ e.now ∧ Enabled s e.now e.callback

instance (s : WelcomeViewController) (e : Event) : Decidable (Delivered s e) := by
  unfold Delivered; infer_instance

end PracticeApps.FlashChat.Welcome
