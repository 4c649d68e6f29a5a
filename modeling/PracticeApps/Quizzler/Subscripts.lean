import PracticeApps.Quizzler.Scoring

/-!
# Subscripts in range

The index of the question is one past the end while the score is shown. What
keeps the subscripts in range is what can happen then: no button is enabled and
no feedback is to come, so only OK can be tapped, and that starts over.
-/

namespace PracticeApps.Quizzler
open EventMachine

/- What waits, what can be pressed, and where the index stands. -/
structure Exclusive (questions : List Question) (s : QuizViewController) : Prop where
  feedbacks : s.feedbacks.length ≤ 1
  alerts : s.alerts.length ≤ 1
  notBoth : s.feedbacks = [] ∨ s.alerts = []
  enabled : ∀ b, (s.button b).isUserInteractionEnabled = true → s.feedbacks = [] ∧ s.alerts = []
  pastEnd : s.quiz.currentQuizNumber = questions.length ↔ s.alerts ≠ []
  below : s.alerts = [] → s.quiz.currentQuizNumber < questions.length

/- Every subscript of the quiz and of the button titles finds its element. -/
structure SubscriptsInRange (s : QuizViewController) : Prop where
  question : ∃ text, s.quiz.getQuestion = .ok text
  choices : ∃ choices, s.quiz.getChoices = .ok choices ∧ 3 ≤ choices.length
  answer : ∀ b : Button, ∃ r, s.quiz.checkAnswer b.valueIndex = .ok r
  titles : ∃ r, updateButtonTitle s = .ok r

theorem asking_exclusive {questions : List Question} {presses : List Button}
    {s : QuizViewController} (hasked : s.quiz.questions = questions) (hs : Asking presses s) :
    Exclusive questions s := by
  have hbelow : s.quiz.currentQuizNumber < questions.length := by
    rw [hs.number, ← hasked]
    exact hs.left
  refine ⟨?_, ?_, Or.inl hs.feedbacks, fun _ _ => ⟨hs.feedbacks, hs.alerts⟩, ?_, fun _ => hbelow⟩
  · rw [hs.feedbacks]
    exact Nat.zero_le 1
  · rw [hs.alerts]
    exact Nat.zero_le 1
  · exact iff_of_false (by omega) (fun h => h hs.alerts)

theorem showingFeedback_exclusive {questions : List Question} {presses : List Button}
    {s : QuizViewController} (hasked : s.quiz.questions = questions)
    (hs : ShowingFeedback presses s) : Exclusive questions s := by
  obtain ⟨sender, hsender⟩ := hs.feedbacks
  have hbelow : s.quiz.currentQuizNumber < questions.length := by
    have hnumber := hs.number
    have hleft := hs.left
    rw [hasked] at hleft
    omega
  refine ⟨?_, ?_, Or.inr hs.alerts, ?_, ?_, fun _ => hbelow⟩
  · rw [hsender]
    exact Nat.le_refl 1
  · rw [hs.alerts]
    exact Nat.zero_le 1
  · intro b hb
    rw [hs.disabled b] at hb
    cases hb
  · exact iff_of_false (by omega) (fun h => h hs.alerts)

theorem showingScore_exclusive {questions : List Question} {presses : List Button}
    {s : QuizViewController} (hasked : s.quiz.questions = questions)
    (hs : ShowingScore presses s) : Exclusive questions s := by
  have hshown : s.alerts ≠ [] := by
    rw [hs.alerts]
    exact List.cons_ne_nil _ _
  have hend : s.quiz.currentQuizNumber = questions.length := by
    rw [hs.number, hs.finished, hasked]
  refine ⟨?_, ?_, Or.inl hs.feedbacks, ?_, iff_of_true hend hshown, fun h => absurd h hshown⟩
  · rw [hs.feedbacks]
    exact Nat.zero_le 1
  · rw [hs.alerts]
    exact Nat.le_refl 1
  · intro b hb
    rw [hs.disabled b] at hb
    cases hb

theorem inAttempt_exclusive {questions : List Question} {presses : List Button}
    {s : QuizViewController} (hs : InAttempt questions presses s) : Exclusive questions s := by
  rcases hs.phase with hasking | hfeedback | hdone
  · exact asking_exclusive hs.asked hasking
  · exact showingFeedback_exclusive hs.asked hfeedback
  · exact showingScore_exclusive hs.asked hdone

/- Below the end, every subscript that can be evaluated has a value. -/
theorem subscripts_below {s : QuizViewController} (hq : Askable s.quiz.questions)
    (hbelow : s.quiz.currentQuizNumber < s.quiz.questions.length) : SubscriptsInRange s := by
  have hquestion := List.getElem?_eq_getElem hbelow
  have hchoices := hq.choices _ (List.getElem_mem hbelow)
  obtain ⟨r, hr, _⟩ := updateButtonTitle_ok hq hbelow
  refine ⟨⟨_, getQuestion_ok hquestion⟩, ⟨_, getChoices_ok hquestion, hchoices⟩, ?_, ?_⟩
  · intro b
    exact ⟨_, checkAnswer_ok hquestion (Nat.lt_of_lt_of_le b.valueIndex_lt hchoices)⟩
  · exact ⟨r, hr⟩

/-- From launch, no run of presses of enabled buttons, feedback timers and OKs traps. In
each state reached at most one feedback and at most one alert wait, never both, a button
is enabled only when neither does, and the index is one past the end exactly while the
score is shown; everywhere else all subscripts are in range, and the next event finds
its elements whatever it is. -/
theorem subscripts_in_range (questions : List Question) (hq : Askable questions) :
    ∃ s₀, viewDidLoad questions = .ok s₀ ∧ ∀ events, AtEach Delivered handle s₀ events →
      ∃ s, exec handle s₀ events = .ok s ∧ Exclusive questions s ∧
        (s.alerts = [] → SubscriptsInRange s) ∧
        ∀ e, Delivered s e → ∃ r, handle s e = .ok r := by
  obtain ⟨s₀, hload, h0⟩ := viewDidLoad_inAttempt hq
  refine ⟨s₀, hload, ?_⟩
  intro events hdelivered
  obtain ⟨s, hs, hin⟩ := run_inAttempt hq h0 hdelivered
  have hexclusive := inAttempt_exclusive hin
  refine ⟨s, hs, hexclusive, fun halerts => ?_, fun e he => ?_⟩
  · have hbelow := hexclusive.below halerts
    rw [← hin.asked] at hq hbelow
    exact subscripts_below hq hbelow
  · obtain ⟨r, hr, _⟩ := handle_inAttempt hq hin he
    exact ⟨r, hr⟩

/- One question and a whole attempt at it. -/
theorem one_question_in_range :
    ∃ s₀ s, viewDidLoad [⟨"Which is a prime?", ["9", "15", "7"], "7"⟩] = .ok s₀ ∧
      exec handle s₀ [.answerButtonPressed .thirdButton, .feedbackTimer] = .ok s ∧
      Exclusive [⟨"Which is a prime?", ["9", "15", "7"], "7"⟩] s ∧
      (s.alerts = [] → SubscriptsInRange s) ∧ ∀ e, Delivered s e → ∃ r, handle s e = .ok r := by
  obtain ⟨s₀, hload, hruns⟩ :=
    subscripts_in_range [⟨"Which is a prime?", ["9", "15", "7"], "7"⟩] (by decide)
  have hdelivered : AtEach Delivered handle
      ((viewDidLoad [⟨"Which is a prime?", ["9", "15", "7"], "7"⟩]).toOption.getD (loaded []))
      [.answerButtonPressed .thirdButton, .feedbackTimer] := by
    decide +kernel
  rw [hload] at hdelivered
  obtain ⟨s, hs, hstate⟩ := hruns _ hdelivered
  exact ⟨s₀, s, hload, hs, hstate⟩

end PracticeApps.Quizzler
