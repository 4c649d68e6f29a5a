import PracticeApps.Library.EventMachine
import PracticeApps.Quizzler.Quiz

/-!
# QuizViewController.swift, TFButton.swift

A press is scored at once; half a second later its feedback ends, and only then
the quiz moves on to the next question or shows the score.
-/

namespace PracticeApps.Quizzler
open EventMachine

/-! ### TFButton.swift -/

inductive BorderColor where
  | deselected
  | correctAnswer
  | incorrectAnswer
  deriving DecidableEq, Repr

structure TFButton where
  title : String
  isUserInteractionEnabled : Bool
  borderColor : BorderColor
  deriving DecidableEq, Repr

inductive Button where
  | firstButton
  | secondButton
  | thirdButton
  deriving DecidableEq, Repr

/- The values of Main.storyboard. -/
def Button.valueIndex : Button → ℕ
  | .firstButton => 0
  | .secondButton => 1
  | .thirdButton => 2

theorem Button.valueIndex_lt (b : Button) : b.valueIndex < 3 := by
  cases b <;> decide

/-! ### QuizViewController.swift -/

structure ScoreAlert where
  score : ℕ
  numberOfQuestions : ℕ
  deriving DecidableEq, Repr

def ScoreAlert.message (alert : ScoreAlert) : String :=
  "Your score is " ++ toString alert.score ++ " out of " ++ toString alert.numberOfQuestions ++
    " questions "

/- `feedbacks` holds the blocks of `updateBorderColorOnAnswer` that wait for their time,
in that order, and `alerts` the alerts on the screen. -/
structure QuizViewController where
  quiz : Quiz
  questionLabel : String
  progress : SingleFloat
  firstButton : TFButton
  secondButton : TFButton
  thirdButton : TFButton
  feedbacks : List Button
  alerts : List ScoreAlert
  deriving DecidableEq

def QuizViewController.button (s : QuizViewController) : Button → TFButton
  | .firstButton => s.firstButton
  | .secondButton => s.secondButton
  | .thirdButton => s.thirdButton

def QuizViewController.mapButtons (f : Button → TFButton → TFButton) (s : QuizViewController) :
    QuizViewController :=
  { s with
    firstButton := f .firstButton s.firstButton
    secondButton := f .secondButton s.secondButton
    thirdButton := f .thirdButton s.thirdButton }

def setBorderColor (sender : Button) (color : BorderColor) : QuizViewController → QuizViewController :=
  .mapButtons fun b button => if b = sender then { button with borderColor := color } else button

def setInteraction (enabled : Bool) : QuizViewController → QuizViewController :=
  .mapButtons fun _ button => { button with isUserInteractionEnabled := enabled }

def disableTFButtonInteractions : QuizViewController → QuizViewController := setInteraction false

def enableTFButtonInteractions : QuizViewController → QuizViewController := setInteraction true

def updateButtonTitle (s : QuizViewController) : Except Trap QuizViewController :=
  match s.quiz.getChoices with
  | .error t => .error t
  | .ok choices =>
    match subscript choices 0, subscript choices 1, subscript choices 2 with
    | .ok first, .ok second, .ok third =>
      .ok { s with
            firstButton := { s.firstButton with title := first }
            secondButton := { s.secondButton with title := second }
            thirdButton := { s.thirdButton with title := third } }
    | .error t, _, _ => .error t
    | _, .error t, _ => .error t
    | _, _, .error t => .error t

def setupView (s : QuizViewController) : Except Trap QuizViewController :=
  match s.quiz.getQuestion with
  | .error t => .error t
  | .ok question => updateButtonTitle { s with questionLabel := question }

def updateLabelForNextQuestion (s : QuizViewController) : Except Trap QuizViewController :=
  setupView s

def updateProgressBar (s : QuizViewController) : QuizViewController :=
  { s with progress := s.quiz.getProgress }

/- The screen of Main.storyboard, whose texts are replaced by the first question's. -/
def loaded (questions : List Question) : QuizViewController :=
  let button := fun title : String => (⟨title, true, .deselected⟩ : TFButton)
  { quiz := .new questions, questionLabel := "", progress := .ofInt 0,
    firstButton := button "A", secondButton := button "B", thirdButton := button "C",
    feedbacks := [], alerts := [] }

def viewDidLoad (questions : List Question) : Except Trap QuizViewController :=
  setupView (loaded questions)

def showQuizResult (s : QuizViewController) : QuizViewController :=
  let score := s.quiz.getQuizScore
  { s with alerts := s.alerts ++ [{ score := score, numberOfQuestions := s.quiz.numberOfQuestions }] }

def restartQuiz (s : QuizViewController) : Except Trap QuizViewController :=
  match setupView { s with quiz := s.quiz.restartQuiz } with
  | .error t => .error t
  | .ok s => .ok (enableTFButtonInteractions (updateProgressBar s))

def updateBorderColorOnAnswer (sender : Button) (isCorrect : Bool) (s : QuizViewController) :
    QuizViewController :=
  let color := if isCorrect then .correctAnswer else .incorrectAnswer
  let s := setBorderColor sender color s
  { s with feedbacks := s.feedbacks ++ [sender] }

def answerButtonPressed (sender : Button) (s : QuizViewController) :
    Except Trap QuizViewController :=
  let s := disableTFButtonInteractions s
  match s.quiz.checkAnswer sender.valueIndex with
  | .error t => .error t
  | .ok (isCorrect, quiz) => .ok (updateBorderColorOnAnswer sender isCorrect { s with quiz := quiz })

def didFinishFeedback (s : QuizViewController) : Except Trap QuizViewController :=
  match s.quiz.isQuizInProgress with
  | (true, quiz) =>
    match updateLabelForNextQuestion (enableTFButtonInteractions { s with quiz := quiz }) with
    | .error t => .error t
    | .ok s => .ok (updateProgressBar s)
  | (false, quiz) => .ok (updateProgressBar (showQuizResult { s with quiz := quiz }))

/-! ### Runs -/

inductive Event where
  | answerButtonPressed (sender : Button)
  | feedbackTimer
  | okAction
  deriving DecidableEq, Repr

def handle (s : QuizViewController) : Event → Except Trap QuizViewController
  | .answerButtonPressed sender => answerButtonPressed sender s
  | .feedbackTimer =>
    match s.feedbacks with
    | [] => .ok s
    | sender :: feedbacks =>
      didFinishFeedback (setBorderColor sender .deselected { s with feedbacks := feedbacks })
  | .okAction =>
    match s.alerts with
    | [] => .ok s
    | _ :: alerts => restartQuiz { s with alerts := alerts }

/- A button is pressed only while its interaction is enabled, a timer fires only if it
was started, and OK is tapped only on an alert. -/
def Delivered (s : QuizViewController) : Event → Prop
  | .answerButtonPressed sender => (s.button sender).isUserInteractionEnabled = true
  | .feedbackTimer => s.feedbacks ≠ []
  | .okAction => s.alerts ≠ []

instance (s : QuizViewController) (e : Event) : Decidable (Delivered s e) := by
  cases e <;> unfold Delivered <;> infer_instance

end PracticeApps.Quizzler
