import PracticeApps.Library.EventMachine
import PracticeApps.Library.SingleFloat

/-!
# ViewController.swift

The run loop keeps the timers that are valid; `timer` is the one the controller
knows. Progress is set by blocks that wait on the main queue.
-/

namespace PracticeApps.EggTimer
open EventMachine

structure ViewController where
  textLabel : String
  progressBarView : SingleFloat
  timer : Option ℕ
  secondsToBoilEgg : ℤ
  remainingSeconds : ℤ
  soundsPlayed : ℕ
  /- The run loop and the main queue. -/
  validTimers : List ℕ
  nextTimer : ℕ
  mainQueue : List SingleFloat
  deriving DecidableEq

inductive Trap where
  | noButtonTitle
  deriving DecidableEq, Repr

def Trap.message : Trap → String
  | .noButtonTitle => "Unexpected Error - No Button Title present"

def eggTimes : List (String × ℤ) := [("Soft", 5), ("Medium", 7), ("Hard", 12)]

/-! ### Timer -/

def invalidate (s : ViewController) : ViewController :=
  match s.timer with
  | none => s
  | some timer => { s with validTimers := s.validTimers.filter (· ≠ timer) }

def isValid (s : ViewController) : Bool :=
  match s.timer with
  | none => false
  | some timer => timer ∈ s.validTimers

def scheduledTimer (s : ViewController) : ViewController :=
  { s with
    timer := some s.nextTimer
    validTimers := s.validTimers ++ [s.nextTimer]
    nextTimer := s.nextTimer + 1 }

/-! ### The controller -/

def updateProgressBar (s : ViewController) : ViewController :=
  let progress := SingleFloat.div (.ofInt (s.secondsToBoilEgg - s.remainingSeconds))
    (.ofInt s.secondsToBoilEgg)
  { s with mainQueue := s.mainQueue ++ [progress] }

def startTimer (s : ViewController) : ViewController :=
  let s := if isValid s then invalidate s else s
  let s := { s with remainingSeconds := s.secondsToBoilEgg }
  let s := updateProgressBar s
  let s := { s with remainingSeconds := s.remainingSeconds - 1 }
  scheduledTimer s

def playSound (s : ViewController) : ViewController :=
  { s with soundsPlayed := s.soundsPlayed + 1 }

def countDown (s : ViewController) : ViewController :=
  let s := updateProgressBar s
  if s.remainingSeconds = 0 then
    let s := { s with textLabel := "Done!" }
    let s := playSound s
    invalidate s
  else { s with remainingSeconds := s.remainingSeconds - 1 }

/- The cooking time in seconds under a title; `eggSeconds` is the one of the app. -/
def processEggTimer (cookingTime : String → Option ℤ) (s : ViewController)
    (title : Option String) : Except Trap ViewController :=
  match title with
  | none => .error .noButtonTitle
  | some buttonTitle =>
    match cookingTime buttonTitle with
    | some seconds => .ok (startTimer { s with secondsToBoilEgg := seconds })
    | none => .ok s

def eggSeconds (buttonTitle : String) : Option ℤ := (eggTimes.lookup buttonTitle).map (· * 60)

/- The screen of Main.storyboard. -/
def launch : ViewController :=
  { textLabel := "How do you like your eggs?", progressBarView := .ofInt 0, timer := none,
    secondsToBoilEgg := 0, remainingSeconds := 0, soundsPlayed := 0, validTimers := [],
    nextTimer := 0, mainQueue := [] }

/-! ### Runs -/

inductive Event where
  | hardnessButtonPressed (title : Option String)
  | timerFires (timer : ℕ)
  | mainQueueBlock
  deriving DecidableEq, Repr

def handle (cookingTime : String → Option ℤ) (s : ViewController) :
    Event → Except Trap ViewController
  | .hardnessButtonPressed title => processEggTimer cookingTime s title
  | .timerFires _ => .ok (countDown s)
  | .mainQueueBlock =>
    match s.mainQueue with
    | [] => .ok s
    | progress :: mainQueue => .ok { s with progressBarView := progress, mainQueue := mainQueue }

/- The buttons have titles, and an invalidated timer does not fire again. -/
def Delivered (s : ViewController) : Event → Prop
  | .hardnessButtonPressed title => title ≠ none
  | .timerFires timer => timer ∈ s.validTimers
  | .mainQueueBlock => s.mainQueue ≠ []

instance (s : ViewController) (e : Event) : Decidable (Delivered s e) := by
  cases e <;> unfold Delivered <;> infer_instance

/-! ### What each operation leaves alone -/

@[simp] theorem updateProgressBar_remainingSeconds (s : ViewController) :
    (updateProgressBar s).remainingSeconds = s.remainingSeconds := rfl

theorem eggSeconds_pos (buttonTitle : String) (seconds : ℤ)
    (h : eggSeconds buttonTitle = some seconds) : 0 < seconds := by
  have hall : ∀ p ∈ eggTimes, 0 < p.2 := by decide
  obtain ⟨minutes, hminutes, rfl⟩ := Option.map_eq_some_iff.mp h
  obtain ⟨l, r, hsplit, _⟩ := List.lookup_eq_some_iff.mp hminutes
  have hpos := hall (buttonTitle, minutes) (by rw [hsplit]; simp)
  have : 0 < minutes := hpos
  omega

end PracticeApps.EggTimer
