import PracticeApps.Quizzler.QuizViewController

/-!
# Honest scoring

Within an attempt the screen asks a question, shows the feedback of a press, or
shows the score. The running score counts the right presses of the attempt, and
the index of the question is the number of presses whose feedback has ended.
-/

namespace PracticeApps.Quizzler
open EventMachine SingleFloat

/-! ### The presses of an attempt -/

/- The presses since the last start or restart. -/
def attempt (events : List Event) : List Button :=
  events.foldl (fun presses e =>
    match e with
    | .answerButtonPressed sender => presses ++ [sender]
    | .feedbackTimer => presses
    | .okAction => []) []

theorem attempt_press (events : List Event) (sender : Button) :
    attempt (events ++ [.answerButtonPressed sender]) = attempt events ++ [sender] := by
  unfold attempt
  rw [List.foldl_append]
  rfl

theorem attempt_feedback (events : List Event) :
    attempt (events ++ [.feedbackTimer]) = attempt events := by
  unfold attempt
  rw [List.foldl_append]
  rfl

theorem attempt_ok (events : List Event) : attempt (events ++ [.okAction]) = [] := by
  unfold attempt
  rw [List.foldl_append]
  rfl

/- The number of questions whose pressed choice is the correct answer. -/
def correctCount (questions : List Question) (presses : List Button) : ℕ :=
  (questions.zip presses).countP fun p => p.1.isCorrect p.2.valueIndex

theorem zip_concat {questions : List Question} {presses : List Button} {question : Question}
    (sender : Button) (h : questions[presses.length]? = some question) :
    questions.zip (presses ++ [sender]) = questions.zip presses ++ [(question, sender)] := by
  induction presses generalizing questions with
  | nil =>
    cases questions with
    | nil => cases h
    | cons q questions =>
      cases h
      cases questions <;> rfl
  | cons b presses ih =>
    cases questions with
    | nil => cases h
    | cons q questions =>
      rw [List.cons_append, List.zip_cons_cons, List.zip_cons_cons, List.cons_append]
      rw [ih (by simpa using h)]

theorem correctCount_concat {questions : List Question} {presses : List Button}
    {question : Question} (sender : Button) (h : questions[presses.length]? = some question) :
    correctCount questions (presses ++ [sender]) =
      correctCount questions presses + (question.isCorrect sender.valueIndex).toNat := by
  unfold correctCount
  rw [zip_concat sender h, List.countP_append]
  cases hc : question.isCorrect sender.valueIndex <;> simp [hc]

theorem correctCount_le (questions : List Question) (presses : List Button) :
    correctCount questions presses ≤ questions.length := by
  have hle := List.countP_le_length (p := fun p : Question × Button => p.1.isCorrect p.2.valueIndex)
    (l := questions.zip presses)
  have hzip : (questions.zip presses).length ≤ questions.length := by
    rw [List.length_zip]
    omega
  unfold correctCount
  omega

/-! ### What the screen is doing -/

def AllInteractions (enabled : Bool) (s : QuizViewController) : Prop :=
  ∀ b, (s.button b).isUserInteractionEnabled = enabled

structure Asking (presses : List Button) (s : QuizViewController) : Prop where
  feedbacks : s.feedbacks = []
  alerts : s.alerts = []
  number : s.quiz.currentQuizNumber = presses.length
  left : presses.length < s.quiz.questions.length
  enabled : AllInteractions true s

structure ShowingFeedback (presses : List Button) (s : QuizViewController) : Prop where
  feedbacks : ∃ sender, s.feedbacks = [sender]
  alerts : s.alerts = []
  number : s.quiz.currentQuizNumber + 1 = presses.length
  left : presses.length ≤ s.quiz.questions.length
  disabled : AllInteractions false s

structure ShowingScore (presses : List Button) (s : QuizViewController) : Prop where
  feedbacks : s.feedbacks = []
  alerts : s.alerts = [⟨correctCount s.quiz.questions presses, s.quiz.questions.length⟩]
  number : s.quiz.currentQuizNumber = presses.length
  finished : presses.length = s.quiz.questions.length
  disabled : AllInteractions false s

structure InAttempt (questions : List Question) (presses : List Button) (s : QuizViewController) :
    Prop where
  asked : s.quiz.questions = questions
  score : s.quiz.correctAnswers = correctCount questions presses
  progress : s.progress = s.quiz.getProgress
  phase : Asking presses s ∨ ShowingFeedback presses s ∨ ShowingScore presses s

/-! ### One step -/

theorem setInteraction_all (enabled : Bool) (s : QuizViewController) :
    AllInteractions enabled (setInteraction enabled s) := by
  intro b
  cases b <;> rfl

theorem setBorderColor_interaction (sender b : Button) (color : BorderColor)
    (s : QuizViewController) :
    ((setBorderColor sender color s).button b).isUserInteractionEnabled =
      (s.button b).isUserInteractionEnabled := by
  cases b <;> simp only [setBorderColor, QuizViewController.mapButtons, QuizViewController.button] <;>
    split <;> rfl

/- Everything but the texts. -/
structure SameButTexts (s r : QuizViewController) : Prop where
  quiz : r.quiz = s.quiz
  progress : r.progress = s.progress
  feedbacks : r.feedbacks = s.feedbacks
  alerts : r.alerts = s.alerts
  interactions : ∀ b, (r.button b).isUserInteractionEnabled = (s.button b).isUserInteractionEnabled

theorem updateButtonTitle_ok {s : QuizViewController} (hq : Askable s.quiz.questions)
    (hleft : s.quiz.currentQuizNumber < s.quiz.questions.length) :
    ∃ r, updateButtonTitle s = .ok r ∧ SameButTexts s r := by
  have hquestion := List.getElem?_eq_getElem hleft
  have hchoices := hq.choices _ (List.getElem_mem hleft)
  have hchoice : ∀ i, i < 3 → ∃ choice,
      subscript s.quiz.questions[s.quiz.currentQuizNumber].a i = .ok choice := by
    intro i hi
    exact ⟨_, subscript_ok (List.getElem?_eq_getElem (Nat.lt_of_lt_of_le hi hchoices))⟩
  obtain ⟨first, hfirst⟩ := hchoice 0 (by omega)
  obtain ⟨second, hsecond⟩ := hchoice 1 (by omega)
  obtain ⟨third, hthird⟩ := hchoice 2 (by omega)
  unfold updateButtonTitle
  simp only [getChoices_ok hquestion, hfirst, hsecond, hthird]
  refine ⟨_, rfl, rfl, rfl, rfl, rfl, ?_⟩
  intro b
  cases b <;> rfl

theorem setupView_ok {s : QuizViewController} (hq : Askable s.quiz.questions)
    (hleft : s.quiz.currentQuizNumber < s.quiz.questions.length) :
    ∃ r, setupView s = .ok r ∧ SameButTexts s r := by
  have hquestion := List.getElem?_eq_getElem hleft
  let labelled : QuizViewController :=
    { s with questionLabel := s.quiz.questions[s.quiz.currentQuizNumber].q }
  obtain ⟨r, hr, hsame⟩ := updateButtonTitle_ok (s := labelled) hq hleft
  unfold setupView
  simp only [getQuestion_ok hquestion]
  refine ⟨r, hr, hsame.quiz, hsame.progress, hsame.feedbacks, hsame.alerts, ?_⟩
  intro b
  rw [hsame.interactions b]
  cases b <;> rfl

theorem asking_of_sameButTexts {presses : List Button} {s r : QuizViewController}
    (h : SameButTexts s r) (hs : Asking presses s) : Asking presses r := by
  refine ⟨?_, ?_, ?_, ?_, ?_⟩
  · rw [h.feedbacks, hs.feedbacks]
  · rw [h.alerts, hs.alerts]
  · rw [h.quiz, hs.number]
  · rw [h.quiz]
    exact hs.left
  · intro b
    rw [h.interactions b, hs.enabled b]

theorem viewDidLoad_inAttempt {questions : List Question} (hq : Askable questions) :
    ∃ s, viewDidLoad questions = .ok s ∧ InAttempt questions [] s := by
  have hpos : 0 < questions.length := List.length_pos_iff.mpr hq.nonempty
  have hloaded : Asking [] (loaded questions) := by
    refine ⟨rfl, rfl, rfl, hpos, ?_⟩
    intro b
    cases b <;> rfl
  obtain ⟨s, hs, hsame⟩ := setupView_ok (s := loaded questions) hq hpos
  refine ⟨s, hs, ?_, ?_, ?_, Or.inl (asking_of_sameButTexts hsame hloaded)⟩
  · rw [hsame.quiz]
    rfl
  · rw [hsame.quiz]
    simp [loaded, Quiz.new, correctCount]
  · rw [hsame.progress, hsame.quiz]
    exact (quotient_zero questions.length).symm

theorem answerButtonPressed_inAttempt {questions : List Question} {presses : List Button}
    {s : QuizViewController} {sender : Button} (hq : Askable questions)
    (hs : InAttempt questions presses s)
    (he : (s.button sender).isUserInteractionEnabled = true) :
    s.quiz.currentQuizNumber = presses.length ∧
      ∃ r, answerButtonPressed sender s = .ok r ∧ InAttempt questions (presses ++ [sender]) r := by
  obtain ⟨hquestions, hscore, hprogress, hphase⟩ := hs
  rcases hphase with hasking | hfeedback | hdone
  · refine ⟨hasking.number, ?_⟩
    have hleft : presses.length < questions.length := by
      rw [← hquestions]
      exact hasking.left
    have hquestion : questions[presses.length]? = some questions[presses.length] :=
      List.getElem?_eq_getElem hleft
    have hindex : sender.valueIndex < questions[presses.length].a.length :=
      Nat.lt_of_lt_of_le sender.valueIndex_lt (hq.choices _ (List.getElem_mem hleft))
    have hcurrent : s.quiz.questions[s.quiz.currentQuizNumber]? = some questions[presses.length] := by
      rw [hquestions, hasking.number, hquestion]
    have hchecked := checkAnswer_ok hcurrent hindex
    have hdisabled : (disableTFButtonInteractions s).quiz = s.quiz := rfl
    unfold answerButtonPressed
    simp only [hdisabled, hchecked]
    refine ⟨_, rfl, hquestions, ?_, hprogress, Or.inr (Or.inl ?_)⟩
    · show s.quiz.correctAnswers + _ = _
      rw [hscore, correctCount_concat sender hquestion]
    · refine ⟨⟨sender, ?_⟩, hasking.alerts, ?_, ?_, ?_⟩
      · show s.feedbacks ++ [sender] = _
        rw [hasking.feedbacks, List.nil_append]
      · show s.quiz.currentQuizNumber + 1 = _
        rw [hasking.number, List.length_append, List.length_singleton]
      · show _ ≤ s.quiz.questions.length
        rw [hquestions, List.length_append, List.length_singleton]
        omega
      · intro b
        cases b <;> cases sender <;> rfl
  · rw [hfeedback.disabled sender] at he
    cases he
  · rw [hdone.disabled sender] at he
    cases he

theorem isQuizInProgress_eq (quiz : Quiz) :
    quiz.isQuizInProgress =
      (decide (quiz.currentQuizNumber + 1 < quiz.questions.length),
        { quiz with currentQuizNumber := quiz.currentQuizNumber + 1 }) := rfl

theorem didFinishFeedback_next {s r : QuizViewController} {quiz : Quiz}
    (hquiz : s.quiz.isQuizInProgress = (true, quiz))
    (hr : updateLabelForNextQuestion (enableTFButtonInteractions { s with quiz := quiz }) = .ok r) :
    didFinishFeedback s = .ok (updateProgressBar r) := by
  simp only [didFinishFeedback, hquiz, hr]

theorem didFinishFeedback_last {s : QuizViewController} {quiz : Quiz}
    (hquiz : s.quiz.isQuizInProgress = (false, quiz)) :
    didFinishFeedback s = .ok (updateProgressBar (showQuizResult { s with quiz := quiz })) := by
  simp only [didFinishFeedback, hquiz]

/- The feedback ends: the next question is asked, or the score is shown. -/
theorem didFinishFeedback_inAttempt {questions : List Question} {presses : List Button}
    {s : QuizViewController} (hq : Askable questions) (hasked : s.quiz.questions = questions)
    (hscore : s.quiz.correctAnswers = correctCount questions presses) (hfeedbacks : s.feedbacks = [])
    (halerts : s.alerts = []) (hnumber : s.quiz.currentQuizNumber + 1 = presses.length)
    (hleft : presses.length ≤ questions.length) (hdisabled : AllInteractions false s) :
    ∃ r, didFinishFeedback s = .ok r ∧ InAttempt questions presses r ∧ r.feedbacks = [] := by
  let moved : QuizViewController :=
    { s with quiz := { s.quiz with currentQuizNumber := presses.length } }
  have hmoved : s.quiz.isQuizInProgress =
      (decide (presses.length < s.quiz.questions.length), moved.quiz) := by
    rw [isQuizInProgress_eq, hnumber]
  by_cases hmore : presses.length < s.quiz.questions.length
  · have hnext : Asking presses (enableTFButtonInteractions moved) :=
      ⟨hfeedbacks, halerts, rfl, hmore, setInteraction_all true moved⟩
    have haskable : Askable (enableTFButtonInteractions moved).quiz.questions := by
      show Askable s.quiz.questions
      rw [hasked]
      exact hq
    obtain ⟨r, hr, hsame⟩ := setupView_ok haskable hmore
    rw [decide_eq_true hmore] at hmoved
    rw [didFinishFeedback_next hmoved hr]
    have hasking := asking_of_sameButTexts hsame hnext
    have hquiz : r.quiz = moved.quiz := hsame.quiz
    refine ⟨updateProgressBar r, rfl, ⟨?_, ?_, rfl, Or.inl ?_⟩, hasking.feedbacks⟩
    · show r.quiz.questions = questions
      rw [hquiz]
      exact hasked
    · show r.quiz.correctAnswers = _
      rw [hquiz]
      exact hscore
    · exact ⟨hasking.feedbacks, hasking.alerts, hasking.number, hasking.left, hasking.enabled⟩
  · have hend : presses.length = s.quiz.questions.length := by
      rw [hasked] at hmore ⊢
      omega
    rw [decide_eq_false hmore] at hmoved
    rw [didFinishFeedback_last hmoved]
    refine ⟨_, rfl, ⟨hasked, hscore, rfl, Or.inr (Or.inr ?_)⟩, hfeedbacks⟩
    refine ⟨hfeedbacks, ?_, rfl, hend, hdisabled⟩
    show s.alerts ++ [⟨s.quiz.correctAnswers, s.quiz.questions.length⟩] = _
    rw [halerts, List.nil_append, hscore, ← hasked]
    rfl

theorem restartQuiz_inAttempt {questions : List Question} {s : QuizViewController}
    (hq : Askable questions) (hasked : s.quiz.questions = questions) (hfeedbacks : s.feedbacks = [])
    (halerts : s.alerts = []) :
    ∃ r, restartQuiz s = .ok r ∧ InAttempt questions [] r ∧ r.feedbacks = [] := by
  have hpos : 0 < s.quiz.questions.length := by
    rw [hasked]
    exact List.length_pos_iff.mpr hq.nonempty
  have haskable : Askable s.quiz.restartQuiz.questions := by
    show Askable s.quiz.questions
    rw [hasked]
    exact hq
  obtain ⟨r, hr, hsame⟩ := setupView_ok (s := { s with quiz := s.quiz.restartQuiz }) haskable hpos
  have hquiz : r.quiz = s.quiz.restartQuiz := hsame.quiz
  have hquestions : r.quiz.questions = s.quiz.questions := by
    rw [hquiz]
    rfl
  unfold restartQuiz
  rw [hr]
  refine ⟨_, rfl, ⟨hquestions.trans hasked, ?_, rfl, Or.inl ?_⟩, hsame.feedbacks.trans hfeedbacks⟩
  · show r.quiz.correctAnswers = _
    rw [hquiz]
    simp [Quiz.restartQuiz, correctCount]
  · refine ⟨hsame.feedbacks.trans hfeedbacks, hsame.alerts.trans halerts, ?_, ?_,
      setInteraction_all true _⟩
    · show r.quiz.currentQuizNumber = _
      rw [hquiz]
      rfl
    · show 0 < r.quiz.questions.length
      rw [hquestions]
      exact hpos

theorem feedbackTimer_inAttempt {questions : List Question} {presses : List Button}
    {s : QuizViewController} (hq : Askable questions) (hs : InAttempt questions presses s)
    (he : s.feedbacks ≠ []) :
    ∃ r, handle s .feedbackTimer = .ok r ∧ InAttempt questions presses r ∧ r.feedbacks = [] := by
  obtain ⟨hasked, hscore, _, hphase⟩ := hs
  rcases hphase with hasking | hfeedback | hdone
  · exact absurd hasking.feedbacks he
  · obtain ⟨sender, hsender⟩ := hfeedback.feedbacks
    have hhandle : handle s .feedbackTimer =
        didFinishFeedback (setBorderColor sender .deselected { s with feedbacks := [] }) := by
      unfold handle
      simp only [hsender]
    rw [hhandle]
    have hleft : presses.length ≤ questions.length := by
      rw [← hasked]
      exact hfeedback.left
    have hdisabled : AllInteractions false
        (setBorderColor sender .deselected { s with feedbacks := [] }) := by
      intro b
      rw [setBorderColor_interaction]
      cases b
      · exact hfeedback.disabled .firstButton
      · exact hfeedback.disabled .secondButton
      · exact hfeedback.disabled .thirdButton
    exact didFinishFeedback_inAttempt hq hasked hscore rfl hfeedback.alerts hfeedback.number hleft
      hdisabled
  · exact absurd hdone.feedbacks he

theorem okAction_inAttempt {questions : List Question} {presses : List Button}
    {s : QuizViewController} (hq : Askable questions) (hs : InAttempt questions presses s)
    (he : s.alerts ≠ []) :
    ∃ r, handle s .okAction = .ok r ∧ InAttempt questions [] r ∧ r.feedbacks = [] := by
  obtain ⟨hasked, _, _, hphase⟩ := hs
  rcases hphase with hasking | hfeedback | hdone
  · exact absurd hasking.alerts he
  · exact absurd hfeedback.alerts he
  · have hhandle : handle s .okAction = restartQuiz { s with alerts := [] } := by
      unfold handle
      simp only [hdone.alerts]
    rw [hhandle]
    exact restartQuiz_inAttempt (s := { s with alerts := [] }) hq hasked hdone.feedbacks rfl

/-! ### Runs -/

/- One event goes well and keeps the attempt. -/
theorem handle_inAttempt {questions : List Question} {events : List Event} {s : QuizViewController}
    {e : Event} (hq : Askable questions) (hs : InAttempt questions (attempt events) s)
    (he : Delivered s e) :
    ∃ r, handle s e = .ok r ∧ InAttempt questions (attempt (events ++ [e])) r ∧
      ((∀ sender, e ≠ .answerButtonPressed sender) → r.feedbacks = []) := by
  cases e with
  | answerButtonPressed sender =>
    obtain ⟨_, r, hr, hpressed⟩ := answerButtonPressed_inAttempt hq hs he
    rw [attempt_press]
    exact ⟨r, hr, hpressed, fun h => absurd rfl (h sender)⟩
  | feedbackTimer =>
    obtain ⟨r, hr, hin, hnone⟩ := feedbackTimer_inAttempt hq hs he
    rw [attempt_feedback]
    exact ⟨r, hr, hin, fun _ => hnone⟩
  | okAction =>
    rw [attempt_ok]
    obtain ⟨r, hr, hin, hnone⟩ := okAction_inAttempt hq hs he
    exact ⟨r, hr, hin, fun _ => hnone⟩

theorem run_inAttempt {questions : List Question} {s₀ : QuizViewController} {events : List Event}
    (hq : Askable questions) (h0 : InAttempt questions [] s₀)
    (hdelivered : AtEach Delivered handle s₀ events) :
    ∃ s, exec handle s₀ events = .ok s ∧ InAttempt questions (attempt events) s := by
  refine exec_safe (I := fun events s => InAttempt questions (attempt events) s) h0 ?_ hdelivered
  intro es s e hs he
  obtain ⟨r, hr, hin, _⟩ := handle_inAttempt hq hs he
  exact ⟨r, hr, hin⟩

/- With no feedback to come, every press of the attempt has been counted as answered. -/
theorem progress_of_no_feedback {questions : List Question} {presses : List Button}
    {s : QuizViewController} (hs : InAttempt questions presses s) (hnone : s.feedbacks = []) :
    s.progress = quotient presses.length questions.length := by
  obtain ⟨hasked, _, hprogress, hphase⟩ := hs
  have hnumber : s.quiz.currentQuizNumber = presses.length := by
    rcases hphase with hasking | hfeedback | hdone
    · exact hasking.number
    · obtain ⟨sender, hsender⟩ := hfeedback.feedbacks
      rw [hsender] at hnone
      cases hnone
    · exact hdone.number
  rw [hprogress]
  unfold Quiz.getProgress
  rw [hnumber, hasked]
  rfl

theorem no_feedback_after {questions : List Question} {s₀ s : QuizViewController}
    {events u : List Event} {e : Event} (hq : Askable questions) (h0 : InAttempt questions [] s₀)
    (hdelivered : AtEach Delivered handle s₀ events) (hs : exec handle s₀ events = .ok s)
    (hsplit : events = u ++ [e]) (he : ∀ sender, e ≠ .answerButtonPressed sender) :
    s.feedbacks = [] := by
  rw [hsplit] at hdelivered hs
  obtain ⟨hu, hlast⟩ := atEach_concat.mp hdelivered
  obtain ⟨q, hqs, hqin⟩ := run_inAttempt hq h0 hu
  obtain ⟨r, hr, _, hnone⟩ := handle_inAttempt hq hqin (hlast q hqs)
  rw [exec_concat_ok e hqs, hr] at hs
  cases hs
  exact hnone he

/-! ### The score shown is earned -/

/-- The progress after so many answers: up to 24 bits no float is nearer to the exact quotient. -/
structure ShowsAnswered (answered count : ℕ) (progress : SingleFloat) : Prop where
  eq : progress = quotient answered count
  nearest : answered ≤ 2 ^ 24 → count ≤ 2 ^ 24 → ∀ x : SingleFloat,
    |progress.value - (answered : ℚ) / count| ≤ |x.value - (answered : ℚ) / count|

theorem quotient_answered (answered count : ℕ) :
    ShowsAnswered answered count (quotient answered count) := by
  refine ⟨rfl, fun hanswered hcount x => ?_⟩
  have hnear := quotient_nearest (k := answered) (n := count) (by exact_mod_cast hanswered)
    (by exact_mod_cast hcount) x
  rwa [Int.cast_natCast, Int.cast_natCast] at hnear

/- What a run from launch has to satisfy in the state it reaches. -/
structure Honest (questions : List Question) (s₀ : QuizViewController) (events : List Event)
    (s : QuizViewController) : Prop where
  /- The alert: one press for each question, and the score is the number of right ones. -/
  alert : ∀ alert ∈ s.alerts, (attempt events).length = questions.length ∧
    alert.score = correctCount questions (attempt events) ∧ alert.score ≤ questions.length ∧
    alert.numberOfQuestions = questions.length
  /- Each press answers the question after those answered before it in the attempt. -/
  order : ∀ u sender v, events = u ++ .answerButtonPressed sender :: v →
    ∃ q, exec handle s₀ u = .ok q ∧ q.quiz.currentQuizNumber = (attempt u).length
  feedback : ∀ u, events = u ++ [.feedbackTimer] →
    ShowsAnswered (attempt events).length questions.length s.progress
  restart : ∀ u, events = u ++ [.okAction] → s.progress.value = 0

theorem inAttempt_alert {questions : List Question} {presses : List Button}
    {s : QuizViewController} {alert : ScoreAlert} (hs : InAttempt questions presses s)
    (halert : alert ∈ s.alerts) :
    presses.length = questions.length ∧
      alert = ⟨correctCount questions presses, questions.length⟩ := by
  obtain ⟨hasked, _, _, hphase⟩ := hs
  rcases hphase with hasking | hfeedback | hdone
  · rw [hasking.alerts] at halert
    cases halert
  · rw [hfeedback.alerts] at halert
    cases halert
  · rw [hdone.alerts, List.mem_singleton] at halert
    rw [← hasked]
    exact ⟨hdone.finished, halert⟩

/-- For every list of questions that can be asked, launch goes well, and so does every run
of presses of enabled buttons, feedback timers and OKs; in each state reached an alert
shows the score earned by exactly one press for each question, in their order, and the
progress is what has been answered. -/
theorem honest_scoring (questions : List Question) (hq : Askable questions) :
    ∃ s₀, viewDidLoad questions = .ok s₀ ∧ ∀ events, AtEach Delivered handle s₀ events →
      ∃ s, exec handle s₀ events = .ok s ∧ Honest questions s₀ events s := by
  obtain ⟨s₀, hload, h0⟩ := viewDidLoad_inAttempt hq
  refine ⟨s₀, hload, ?_⟩
  intro events hdelivered
  obtain ⟨s, hs, hin⟩ := run_inAttempt hq h0 hdelivered
  refine ⟨s, hs, ?_, ?_, ?_, ?_⟩
  · intro alert halert
    obtain ⟨hlength, heq⟩ := inAttempt_alert hin halert
    rw [heq]
    exact ⟨hlength, rfl, correctCount_le questions _, rfl⟩
  · intro u sender v hsplit
    rw [hsplit] at hdelivered
    obtain ⟨hu, hrest⟩ := atEach_append.mp hdelivered
    obtain ⟨q, hqs, hqin⟩ := run_inAttempt hq h0 hu
    have hpress : Delivered q (.answerButtonPressed sender) := (hrest q hqs).1
    exact ⟨q, hqs, (answerButtonPressed_inAttempt hq hqin hpress).1⟩
  · intro u hsplit
    have hnone := no_feedback_after hq h0 hdelivered hs hsplit (by simp)
    rw [progress_of_no_feedback hin hnone]
    exact quotient_answered _ _
  · intro u hsplit
    have hnone := no_feedback_after hq h0 hdelivered hs hsplit (by simp)
    rw [progress_of_no_feedback hin hnone, hsplit, attempt_ok, List.length_nil, Nat.cast_zero,
      quotient_zero, zero_value]

/- Two questions, the first answered wrongly. -/
def twoQuestions : List Question :=
  [⟨"How many legs has an ant?", ["4", "6", "8"], "6"⟩,
   ⟨"Which is a prime?", ["9", "15", "7", "21"], "7"⟩]

def antAndPrime : List Event :=
  [.answerButtonPressed .firstButton, .feedbackTimer, .answerButtonPressed .thirdButton,
    .feedbackTimer]

theorem ant_and_prime :
    ∃ s₀ s, viewDidLoad twoQuestions = .ok s₀ ∧ exec handle s₀ antAndPrime = .ok s ∧
      Honest twoQuestions s₀ antAndPrime s := by
  obtain ⟨s₀, hload, hruns⟩ := honest_scoring twoQuestions (by decide)
  have hdelivered : AtEach Delivered handle
      ((viewDidLoad twoQuestions).toOption.getD (loaded twoQuestions)) antAndPrime := by
    decide +kernel
  rw [hload] at hdelivered
  obtain ⟨s, hs, hhonest⟩ := hruns antAndPrime hdelivered
  exact ⟨s₀, s, hload, hs, hhonest⟩

/- One of the ten questions answered: the progress is not exactly a tenth. -/
def firstAnswered : List Event := [.answerButtonPressed .firstButton, .feedbackTimer]

theorem firstAnswered_not_exact :
    ∃ s₀ s, viewDidLoad Quiz.multipleChoiceQuestion = .ok s₀ ∧
      AtEach Delivered handle s₀ firstAnswered ∧ exec handle s₀ firstAnswered = .ok s ∧
      (attempt firstAnswered).length = 1 ∧ s.progress.value ≠ 1 / 10 :=
  ⟨_, _, rfl, by decide +kernel, rfl, rfl, by decide +kernel⟩

end PracticeApps.Quizzler
