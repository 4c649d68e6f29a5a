import Mathlib.Data.List.Basic
import PracticeApps.Library.SingleFloat

/-!
# Question.swift, Quiz.swift

The quiz keeps a running score and the index of the current question. Subscripts
out of range trap.
-/

namespace PracticeApps.Quizzler

structure Question where
  q : String
  a : List String
  correctAnswer : String
  deriving DecidableEq, Repr

inductive Trap where
  | indexOutOfRange (index count : ℕ)
  deriving DecidableEq, Repr

def subscript {E : Type} (l : List E) (i : ℕ) : Except Trap E :=
  match l[i]? with
  | some e => .ok e
  | none => .error (.indexOutOfRange i l.length)

theorem subscript_ok {E : Type} {l : List E} {i : ℕ} {e : E} (h : l[i]? = some e) :
    subscript l i = .ok e := by
  unfold subscript
  rw [h]

structure Quiz where
  correctAnswers : ℕ
  currentQuizNumber : ℕ
  questions : List Question
  deriving DecidableEq, Repr

namespace Quiz

/- `Quiz(questions:)` -/
def new (questions : List Question) : Quiz :=
  { correctAnswers := 0, currentQuizNumber := 0, questions := questions }

def numberOfQuestions (quiz : Quiz) : ℕ := quiz.questions.length

def getQuestion (quiz : Quiz) : Except Trap String :=
  (subscript quiz.questions quiz.currentQuizNumber).map Question.q

def getChoices (quiz : Quiz) : Except Trap (List String) :=
  (subscript quiz.questions quiz.currentQuizNumber).map Question.a

def getProgress (quiz : Quiz) : SingleFloat :=
  .div (.ofInt quiz.currentQuizNumber) (.ofInt quiz.questions.length)

def getQuizScore (quiz : Quiz) : ℕ := quiz.correctAnswers

def restartQuiz (quiz : Quiz) : Quiz := { quiz with currentQuizNumber := 0, correctAnswers := 0 }

def checkAnswer (quiz : Quiz) (answerIndex : ℕ) : Except Trap (Bool × Quiz) :=
  match subscript quiz.questions quiz.currentQuizNumber with
  | .error t => .error t
  | .ok question =>
    match subscript question.a answerIndex with
    | .error t => .error t
    | .ok choice =>
      if question.correctAnswer = choice then
        .ok (true, { quiz with correctAnswers := quiz.correctAnswers + 1 })
      else .ok (false, quiz)

def isQuizInProgress (quiz : Quiz) : Bool × Quiz :=
  let quiz := { quiz with currentQuizNumber := quiz.currentQuizNumber + 1 }
  (decide (quiz.currentQuizNumber < quiz.numberOfQuestions), quiz)

def multipleChoiceQuestion : List Question :=
  [{ q := "Which is the largest organ in the human body?"
     a := ["Heart", "Skin", "Large Intestine"], correctAnswer := "Skin" },
   { q := "Five dollars is worth how many nickels?"
     a := ["25", "50", "100"], correctAnswer := "100" },
   { q := "What do the letters in the GMT time zone stand for?"
     a := ["Global Meridian Time", "Greenwich Mean Time", "General Median Time"]
     correctAnswer := "Greenwich Mean Time" },
   { q := "What is the French word for 'hat'?"
     a := ["Chapeau", "Écharpe", "Bonnet"], correctAnswer := "Chapeau" },
   { q := "In past times, what would a gentleman keep in his fob pocket?"
     a := ["Notebook", "Handkerchief", "Watch"], correctAnswer := "Watch" },
   { q := "How would one say goodbye in Spanish?"
     a := ["Au Revoir", "Adiós", "Salir"], correctAnswer := "Adiós" },
   { q := "Which of these colours is NOT featured in the logo for Google?"
     a := ["Green", "Orange", "Blue"], correctAnswer := "Orange" },
   { q := "What alcoholic drink is made from molasses?"
     a := ["Rum", "Whisky", "Gin"], correctAnswer := "Rum" },
   { q := "What type of animal was Harambe?"
     a := ["Panda", "Gorilla", "Crocodile"], correctAnswer := "Gorilla" },
   { q := "Where is Tasmania located?"
     a := ["Indonesia", "Australia", "Scotland"], correctAnswer := "Australia" }]

end Quiz

/-! ### Questions that can be asked with three buttons -/

structure Askable (questions : List Question) : Prop where
  nonempty : questions ≠ []
  choices : ∀ question ∈ questions, 3 ≤ question.a.length

instance (questions : List Question) : Decidable (Askable questions) :=
  decidable_of_iff (questions ≠ [] ∧ ∀ question ∈ questions, 3 ≤ question.a.length)
    ⟨fun h => ⟨h.1, h.2⟩, fun h => ⟨h.nonempty, h.choices⟩⟩

theorem multipleChoiceQuestion_askable : Askable Quiz.multipleChoiceQuestion := by decide

/- The shipped questions have exactly three choices each, the right one among them. -/
theorem multipleChoiceQuestion_answerable :
    ∀ question ∈ Quiz.multipleChoiceQuestion,
      question.a.length = 3 ∧ question.correctAnswer ∈ question.a := by decide

/-! ### Answering a question -/

def Question.isCorrect (question : Question) (index : ℕ) : Bool :=
  question.a[index]? == some question.correctAnswer

theorem checkAnswer_ok {quiz : Quiz} {question : Question} {index : ℕ}
    (hquestion : quiz.questions[quiz.currentQuizNumber]? = some question)
    (hindex : index < question.a.length) :
    quiz.checkAnswer index =
      .ok (question.isCorrect index,
        { quiz with correctAnswers := quiz.correctAnswers + (question.isCorrect index).toNat }) := by
  have hchoice := List.getElem?_eq_getElem hindex
  unfold Quiz.checkAnswer Question.isCorrect
  rw [subscript_ok hquestion]
  dsimp only
  rw [subscript_ok hchoice, hchoice]
  dsimp only
  split
  next hright => simp [← hright]
  next hwrong =>
    have hne : (question.a[index] == question.correctAnswer) = false :=
      beq_eq_false_iff_ne.mpr fun h => hwrong h.symm
    simp only [Option.some_beq_some, hne, Bool.toNat_false, Nat.add_zero]

theorem getQuestion_ok {quiz : Quiz} {question : Question}
    (h : quiz.questions[quiz.currentQuizNumber]? = some question) :
    quiz.getQuestion = .ok question.q := by
  unfold Quiz.getQuestion
  rw [subscript_ok h]
  rfl

theorem getChoices_ok {quiz : Quiz} {question : Question}
    (h : quiz.questions[quiz.currentQuizNumber]? = some question) :
    quiz.getChoices = .ok question.a := by
  unfold Quiz.getChoices
  rw [subscript_ok h]
  rfl

end PracticeApps.Quizzler
