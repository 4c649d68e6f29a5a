import Mathlib.Data.List.Range
import PracticeApps.EggTimer.ViewController

/-!
# The countdown

`Clock` says what the egg timer is for: a press starts to count seconds from 0
up to its cooking time, and the end is announced once, at the last second. The
controller follows the clock through every restart.
-/

namespace PracticeApps.EggTimer
open EventMachine SingleFloat

/-! ### The clock -/

/-- `cooking` holds the time of the last press and the seconds counted since,
`shown` the values of the progress bar so far, the last one last. -/
structure Clock where
  cooking : Option (ℤ × ℕ)
  shown : List SingleFloat
  completions : ℕ

namespace Clock

def start : Clock := ⟨none, [ofInt 0], 0⟩

def press (c : Clock) (seconds : ℤ) : Clock :=
  { c with cooking := some (seconds, 0), shown := c.shown ++ [ofInt 0] }

def second (c : Clock) : Clock :=
  match c.cooking with
  | none => c
  | some (seconds, k) =>
    { cooking := some (seconds, k + 1)
      shown := c.shown ++ [quotient (k + 1 : ℕ) seconds]
      completions := c.completions + if ((k + 1 : ℕ) : ℤ) = seconds then 1 else 0 }

def step (cookingTime : String → Option ℤ) (c : Clock) : Event → Clock
  | .hardnessButtonPressed title =>
    match title.bind cookingTime with
    | none => c
    | some seconds => c.press seconds
  | .timerFires _ => c.second
  | .mainQueueBlock => c

end Clock

def clock (cookingTime : String → Option ℤ) (events : List Event) : Clock :=
  events.foldl (Clock.step cookingTime) .start

/- The next event is the last second of the countdown. -/
def Completes (c : Clock) (e : Event) : Prop :=
  ∃ timer seconds k, e = .timerFires timer ∧ c.cooking = some (seconds, k) ∧
    ((k + 1 : ℕ) : ℤ) = seconds

/-- The values of the progress bar from a press to the `k`-th second after it. -/
def sincePress (seconds : ℤ) (k : ℕ) : List SingleFloat :=
  (List.range (k + 1)).map fun j : ℕ => quotient j seconds

theorem clock_concat (cookingTime : String → Option ℤ) (events : List Event) (e : Event) :
    clock cookingTime (events ++ [e]) = (clock cookingTime events).step cookingTime e := by
  unfold clock
  rw [List.foldl_append]
  rfl

theorem sincePress_succ (seconds : ℤ) (k : ℕ) :
    sincePress seconds (k + 1) = sincePress seconds k ++ [quotient (k + 1 : ℕ) seconds] := by
  unfold sincePress
  rw [List.range_succ, List.map_append]
  rfl

theorem sincePress_getLast (seconds : ℤ) (k : ℕ) :
    (sincePress seconds k).getLast? = some (quotient k seconds) := by
  unfold sincePress
  rw [List.range_succ, List.map_append, List.map_singleton, List.getLast?_concat]

theorem sincePress_increases {seconds : ℤ} (hpos : 0 < seconds) (k : ℕ) :
    (sincePress seconds k).Pairwise fun p q => p.value ≤ q.value := by
  unfold sincePress
  rw [List.pairwise_map]
  refine List.Pairwise.imp ?_ (List.pairwise_lt_range (n := k + 1))
  intro i j hij
  exact quotient_mono hpos (by omega)

theorem sincePress_unit {seconds : ℤ} (hpos : 0 < seconds) {k : ℕ} (hk : (k : ℤ) ≤ seconds) :
    ∀ p ∈ sincePress seconds k, 0 ≤ p.value ∧ p.value ≤ 1 := by
  intro p hp
  obtain ⟨j, hj, rfl⟩ := List.mem_map.mp hp
  have hjk := List.mem_range.mp hj
  exact quotient_unit hpos (by omega) (by omega)

/-! ### The controller follows the clock -/

structure Idle (s : ViewController) : Prop where
  timers : s.validTimers = []
  remaining : s.remainingSeconds = 0

structure Cooking (seconds : ℤ) (k : ℕ) (s : ViewController) : Prop where
  left : (k : ℤ) < seconds
  time : s.secondsToBoilEgg = seconds
  remaining : s.remainingSeconds = seconds - 1 - k
  timers : ∃ timer, s.timer = some timer ∧ s.validTimers = [timer]

structure Finished (seconds : ℤ) (k : ℕ) (s : ViewController) : Prop where
  done : (k : ℤ) = seconds
  timers : s.validTimers = []
  remaining : s.remainingSeconds = 0

inductive Phase (s : ViewController) : Option (ℤ × ℕ) → Prop
  | idle : Idle s → Phase s none
  | cooking {seconds : ℤ} {k : ℕ} : Cooking seconds k s → Phase s (some (seconds, k))
  | finished {seconds : ℤ} {k : ℕ} : 0 < seconds → Finished seconds k s →
      Phase s (some (seconds, k))

structure Follows (c : Clock) (s : ViewController) : Prop where
  phase : Phase s c.cooking
  sounds : s.soundsPlayed = c.completions
  screen : ∃ past, c.shown = past ++ s.progressBarView :: s.mainQueue
  values : ∀ seconds k, c.cooking = some (seconds, k) →
    ∃ before, c.shown = before ++ sincePress seconds k

/- The timer that is valid, if there is one, is the one the controller knows. -/
def OneTimer (s : ViewController) : Prop :=
  s.validTimers = [] ∨ ∃ timer, s.timer = some timer ∧ s.validTimers = [timer]

theorem phase_oneTimer {s : ViewController} {cooking : Option (ℤ × ℕ)} (h : Phase s cooking) :
    OneTimer s := by
  cases h with
  | idle h => exact Or.inl h.timers
  | cooking h => exact Or.inr h.timers
  | finished _ h => exact Or.inl h.timers

theorem stopped_eq {s : ViewController} (h : OneTimer s) :
    (if isValid s then invalidate s else s) = { s with validTimers := [] } := by
  rcases h with hnone | ⟨timer, htimer, hvalid⟩
  · have hinvalid : isValid s = false := by
      unfold isValid
      cases s.timer <;> simp [hnone]
    have hsame : { s with validTimers := [] } = s := by
      rw [← hnone]
    rw [hinvalid, hsame]
    rfl
  · simp [isValid, htimer, hvalid, invalidate]

/- The screen is no part of the phase. -/
theorem phase_block {s : ViewController} {cooking : Option (ℤ × ℕ)} (progress : SingleFloat)
    (mainQueue : List SingleFloat) (h : Phase s cooking) :
    Phase { s with progressBarView := progress, mainQueue := mainQueue } cooking := by
  cases h with
  | idle h => exact .idle ⟨h.timers, h.remaining⟩
  | cooking h => exact .cooking ⟨h.left, h.time, h.remaining, h.timers⟩
  | finished hpos h => exact .finished hpos ⟨h.done, h.timers, h.remaining⟩

/- A press: whatever was cooking is given up, and the progress is put back to 0. -/
theorem startTimer_eq {s : ViewController} (h : OneTimer s) :
    startTimer s = { s with
      remainingSeconds := s.secondsToBoilEgg - 1
      mainQueue := s.mainQueue ++ [ofInt 0]
      timer := some s.nextTimer
      validTimers := [s.nextTimer]
      nextTimer := s.nextTimer + 1 } := by
  have hzero := quotient_zero s.secondsToBoilEgg
  unfold quotient at hzero
  unfold startTimer
  rw [stopped_eq h]
  simp [updateProgressBar, scheduledTimer, hzero]

/- The bar counts the second that is just over. -/
theorem updateProgressBar_cooking {s : ViewController} {seconds : ℤ} {k : ℕ}
    (h : Cooking seconds k s) :
    updateProgressBar s =
      { s with mainQueue := s.mainQueue ++ [quotient (k + 1 : ℕ) seconds] } := by
  have hcounted : s.secondsToBoilEgg - s.remainingSeconds = ((k + 1 : ℕ) : ℤ) := by
    rw [h.time, h.remaining]
    omega
  unfold updateProgressBar
  rw [hcounted, h.time]
  rfl

theorem countDown_before {s : ViewController} {seconds : ℤ} {k : ℕ} (h : Cooking seconds k s)
    (hmore : ((k + 1 : ℕ) : ℤ) < seconds) :
    countDown s = { s with
      mainQueue := s.mainQueue ++ [quotient (k + 1 : ℕ) seconds]
      remainingSeconds := seconds - 1 - (k + 1 : ℕ) } := by
  have hne : s.remainingSeconds ≠ 0 := by
    rw [h.remaining]
    omega
  have hnext : s.remainingSeconds - 1 = seconds - 1 - ((k + 1 : ℕ) : ℤ) := by
    rw [h.remaining]
    omega
  unfold countDown
  dsimp only
  rw [updateProgressBar_remainingSeconds, if_neg hne, hnext, updateProgressBar_cooking h]

theorem countDown_last {s : ViewController} {seconds : ℤ} {k : ℕ} (h : Cooking seconds k s)
    (hlast : ((k + 1 : ℕ) : ℤ) = seconds) :
    countDown s = { s with
      mainQueue := s.mainQueue ++ [quotient (k + 1 : ℕ) seconds]
      textLabel := "Done!"
      soundsPlayed := s.soundsPlayed + 1
      validTimers := [] } := by
  have hzero : s.remainingSeconds = 0 := by
    rw [h.remaining]
    omega
  obtain ⟨timer, htimer, hvalid⟩ := h.timers
  unfold countDown
  dsimp only
  rw [updateProgressBar_remainingSeconds, if_pos hzero, updateProgressBar_cooking h]
  simp [playSound, invalidate, htimer, hvalid]

/-! ### One event -/

variable {cookingTime : String → Option ℤ}

/- What an event does in a state that follows the clock. -/
def Announces (c : Clock) (s : ViewController) (e : Event) (r : ViewController) : Prop :=
  (Completes c e → r.textLabel = "Done!" ∧ r.soundsPlayed = s.soundsPlayed + 1 ∧
    r.validTimers = []) ∧
  (¬ Completes c e → r.textLabel = s.textLabel ∧ r.soundsPlayed = s.soundsPlayed)

theorem announces_of_not_timer {c : Clock} {s r : ViewController} {e : Event}
    (he : ∀ timer, e ≠ .timerFires timer) (hlabel : r.textLabel = s.textLabel)
    (hsounds : r.soundsPlayed = s.soundsPlayed) : Announces c s e r := by
  refine ⟨?_, fun _ => ⟨hlabel, hsounds⟩⟩
  intro h
  obtain ⟨timer, _, _, htimer, _⟩ := h
  exact absurd htimer (he timer)

theorem screen_concat {s : ViewController} {shown : List SingleFloat} (progress : SingleFloat)
    (h : ∃ past, shown = past ++ s.progressBarView :: s.mainQueue) :
    ∃ past, shown ++ [progress] = past ++ s.progressBarView :: (s.mainQueue ++ [progress]) := by
  obtain ⟨past, hpast⟩ := h
  exact ⟨past, by rw [hpast]; simp⟩

theorem press_follows {c : Clock} {s : ViewController} {seconds : ℤ} (hs : Follows c s)
    (hpos : 0 < seconds) :
    Follows (c.press seconds) (startTimer { s with secondsToBoilEgg := seconds }) := by
  have hone : OneTimer s := phase_oneTimer hs.phase
  rw [startTimer_eq (s := { s with secondsToBoilEgg := seconds }) hone]
  refine ⟨Phase.cooking ⟨by simpa using hpos, rfl, by simp, ⟨_, rfl, rfl⟩⟩, hs.sounds,
    screen_concat (ofInt 0) hs.screen, ?_⟩
  intro seconds' k h
  cases h
  exact ⟨c.shown, by simp [Clock.press, sincePress, quotient_zero]⟩

theorem second_eq {c : Clock} {seconds : ℤ} {k : ℕ} (h : c.cooking = some (seconds, k)) :
    c.second =
      { cooking := some (seconds, k + 1)
        shown := c.shown ++ [quotient (k + 1 : ℕ) seconds]
        completions := c.completions + if ((k + 1 : ℕ) : ℤ) = seconds then 1 else 0 } := by
  simp only [Clock.second, h]

theorem completes_iff {c : Clock} {timer : ℕ} {seconds : ℤ} {k : ℕ}
    (h : c.cooking = some (seconds, k)) :
    Completes c (.timerFires timer) ↔ ((k + 1 : ℕ) : ℤ) = seconds := by
  refine ⟨?_, fun hlast => ⟨timer, seconds, k, rfl, h, hlast⟩⟩
  intro hcompletes
  obtain ⟨_, _, _, _, hsame, hend⟩ := hcompletes
  rw [h] at hsame
  cases hsame
  exact hend

/- Only a timer of a running countdown is valid. -/
theorem cooking_of_valid {s : ViewController} {cooking : Option (ℤ × ℕ)} {timer : ℕ}
    (h : Phase s cooking) (he : timer ∈ s.validTimers) :
    ∃ seconds k, cooking = some (seconds, k) ∧ Cooking seconds k s := by
  cases h with
  | idle h =>
    rw [h.timers] at he
    cases he
  | cooking h => exact ⟨_, _, rfl, h⟩
  | finished _ h =>
    rw [h.timers] at he
    cases he

theorem second_follows {c : Clock} {s : ViewController} {timer : ℕ} (hs : Follows c s)
    (he : timer ∈ s.validTimers) :
    Follows c.second (countDown s) ∧ Announces c s (.timerFires timer) (countDown s) := by
  obtain ⟨hphase, hsounds, hscreen, hvalues⟩ := hs
  obtain ⟨seconds, k, hcooking, h⟩ := cooking_of_valid hphase he
  have hvalues' : ∀ seconds' k', some (seconds, k + 1) = some (seconds', k') →
      ∃ before, c.shown ++ [quotient (k + 1 : ℕ) seconds] =
        before ++ sincePress seconds' k' := by
    intro seconds' k' h'
    cases h'
    obtain ⟨before, hbefore⟩ := hvalues seconds k hcooking
    exact ⟨before, by rw [hbefore, sincePress_succ, List.append_assoc]⟩
  have hleft := h.left
  unfold Announces
  rw [second_eq hcooking, completes_iff hcooking]
  by_cases hlast : ((k + 1 : ℕ) : ℤ) = seconds
  · have hzero : s.remainingSeconds = 0 := by
      rw [h.remaining]
      omega
    rw [countDown_last h hlast, if_pos hlast]
    refine ⟨⟨Phase.finished (by omega) ⟨hlast, rfl, hzero⟩, ?_, screen_concat _ hscreen, hvalues'⟩,
      fun _ => ⟨rfl, rfl, rfl⟩, fun hnot => absurd hlast hnot⟩
    rw [← hsounds]
  · have hmore : ((k + 1 : ℕ) : ℤ) < seconds := by omega
    rw [countDown_before h hmore, if_neg hlast]
    refine ⟨⟨Phase.cooking ⟨hmore, h.time, rfl, h.timers⟩, ?_, screen_concat _ hscreen, hvalues'⟩,
      fun h' => absurd h' hlast, fun _ => ⟨rfl, rfl⟩⟩
    rw [← hsounds]
    rfl

theorem handle_follows (hpos : ∀ title seconds, cookingTime title = some seconds → 0 < seconds)
    {c : Clock} {s : ViewController} {e : Event} (hs : Follows c s) (he : Delivered s e) :
    ∃ r, handle cookingTime s e = .ok r ∧ Follows (c.step cookingTime e) r ∧
      Announces c s e r := by
  cases e with
  | hardnessButtonPressed title =>
    cases title with
    | none => exact absurd rfl he
    | some title =>
      cases htime : cookingTime title with
      | none =>
        refine ⟨s, ?_, ?_, announces_of_not_timer (by simp) rfl rfl⟩
        · simp only [handle, processEggTimer, htime]
        · simpa only [Clock.step, Option.bind_some, htime] using hs
      | some seconds =>
        have hone : OneTimer s := phase_oneTimer hs.phase
        refine ⟨startTimer { s with secondsToBoilEgg := seconds }, ?_, ?_, ?_⟩
        · simp only [handle, processEggTimer, htime]
        · simpa only [Clock.step, Option.bind_some, htime] using
            press_follows hs (hpos title seconds htime)
        · rw [startTimer_eq (s := { s with secondsToBoilEgg := seconds }) hone]
          exact announces_of_not_timer (by simp) rfl rfl
  | timerFires timer =>
    obtain ⟨hfollows, hannounces⟩ := second_follows hs he
    exact ⟨countDown s, rfl, hfollows, hannounces⟩
  | mainQueueBlock =>
    cases hqueue : s.mainQueue with
    | nil => exact absurd hqueue he
    | cons progress mainQueue =>
      refine ⟨{ s with progressBarView := progress, mainQueue := mainQueue }, ?_, ?_,
        announces_of_not_timer (by simp) rfl rfl⟩
      · simp only [handle, hqueue]
      · refine ⟨phase_block progress mainQueue hs.phase, hs.sounds, ?_, hs.values⟩
        · obtain ⟨past, hpast⟩ := hs.screen
          exact ⟨past ++ [s.progressBarView], by
            show c.shown = _
            rw [hpast, hqueue]; simp⟩

/-! ### Every run -/

theorem launch_follows : Follows .start launch :=
  ⟨Phase.idle ⟨rfl, rfl⟩, rfl, ⟨[], rfl⟩, by
    intro seconds k h
    cases h⟩

theorem run_follows (hpos : ∀ title seconds, cookingTime title = some seconds → 0 < seconds)
    {events : List Event} (hdelivered : AtEach Delivered (handle cookingTime) launch events) :
    ∃ s, exec (handle cookingTime) launch events = .ok s ∧ Follows (clock cookingTime events) s := by
  refine exec_safe (I := fun events s => Follows (clock cookingTime events) s) launch_follows ?_
    hdelivered
  intro es s e hs he
  obtain ⟨r, hr, hfollows, _⟩ := handle_follows hpos hs he
  rw [← clock_concat] at hfollows
  exact ⟨r, hr, hfollows⟩

/- The main queue runs its blocks: the last value stays. -/
theorem drain_ok (s : ViewController) :
    exec (handle cookingTime) s (List.replicate s.mainQueue.length .mainQueueBlock) =
      .ok { s with
        progressBarView := (s.progressBarView :: s.mainQueue).getLast (by simp)
        mainQueue := [] } := by
  generalize hqueue : s.mainQueue = queue
  induction queue generalizing s with
  | nil =>
    have hempty : { s with mainQueue := [] } = s := by
      rw [← hqueue]
    exact congrArg Except.ok hempty.symm
  | cons progress queue ih =>
    have hblock : handle cookingTime s .mainQueueBlock =
        .ok { s with progressBarView := progress, mainQueue := queue } := by
      simp only [handle, hqueue]
    rw [List.length_cons, List.replicate_succ, exec_cons_ok _ hblock]
    rw [ih { s with progressBarView := progress, mainQueue := queue } rfl]
    simp

/-- The progress after `k` of so many seconds: 0 at first, and up to 24 bits no float is nearer
to the exact quotient. -/
structure ShowsQuotient (k : ℕ) (seconds : ℤ) (progress : SingleFloat) : Prop where
  eq : progress = quotient k seconds
  first : k = 0 → progress.value = 0
  nearest : seconds ≤ 2 ^ 24 → ∀ x : SingleFloat,
    |progress.value - (k : ℚ) / seconds| ≤ |x.value - (k : ℚ) / seconds|

theorem quotient_shown {k : ℕ} {seconds : ℤ} (hk : (k : ℤ) ≤ seconds) :
    ShowsQuotient k seconds (quotient k seconds) := by
  refine ⟨rfl, ?_, ?_⟩
  · rintro rfl
    rw [Nat.cast_zero, quotient_zero, zero_value]
  · intro hbits x
    have hnear := quotient_nearest (k := k) (n := seconds) (abs_le.mpr ⟨by omega, by omega⟩)
      (abs_le.mpr ⟨by omega, hbits⟩) x
    rwa [Int.cast_natCast] at hnear

/-- What the clock says about the screen and the timers. -/
structure ExactCountdown (cookingTime : String → Option ℤ) (c : Clock) (s : ViewController) :
    Prop where
  oneTimer : s.validTimers.length ≤ 1
  current : ∀ timer ∈ s.validTimers, s.timer = some timer
  remaining : 0 ≤ s.remainingSeconds
  running : s.validTimers ≠ [] ↔ ∃ seconds k, c.cooking = some (seconds, k) ∧ (k : ℤ) < seconds
  sounds : s.soundsPlayed = c.completions
  /- The screen has shown the clock's values in order and the main queue holds the rest;
  since a press they run from 0 up and stay within 0 and 1. -/
  screen : ∃ past, c.shown = past ++ s.progressBarView :: s.mainQueue
  values : ∀ seconds k, c.cooking = some (seconds, k) → (k : ℤ) ≤ seconds ∧
    (∃ before, c.shown = before ++ sincePress seconds k) ∧
    ((sincePress seconds k).Pairwise fun p q => p.value ≤ q.value) ∧
    ∀ p ∈ sincePress seconds k, 0 ≤ p.value ∧ p.value ≤ 1
  /- What is shown once the main queue has run. -/
  settled : ∀ seconds k, c.cooking = some (seconds, k) → ∃ r,
    exec (handle cookingTime) s (List.replicate s.mainQueue.length .mainQueueBlock) = .ok r ∧
      ShowsQuotient k seconds r.progressBarView
  next : ∀ e, Delivered s e → ∃ r, handle cookingTime s e = .ok r ∧ Announces c s e r

theorem phase_seconds {s : ViewController} {seconds : ℤ} {k : ℕ}
    (h : Phase s (some (seconds, k))) : 0 < seconds ∧ (k : ℤ) ≤ seconds := by
  cases h with
  | cooking h =>
    have := h.left
    omega
  | finished hpos h => exact ⟨hpos, by rw [h.done]⟩

theorem phase_remaining {s : ViewController} {cooking : Option (ℤ × ℕ)} (h : Phase s cooking) :
    0 ≤ s.remainingSeconds := by
  cases h with
  | idle h => rw [h.remaining]
  | finished _ h => rw [h.remaining]
  | cooking h =>
    rw [h.remaining]
    have := h.left
    omega

theorem phase_running {s : ViewController} {cooking : Option (ℤ × ℕ)} (h : Phase s cooking) :
    s.validTimers ≠ [] ↔ ∃ seconds k, cooking = some (seconds, k) ∧ (k : ℤ) < seconds := by
  cases h with
  | idle h => simp [h.timers]
  | cooking h =>
    obtain ⟨timer, _, hvalid⟩ := h.timers
    refine iff_of_true (by simp [hvalid]) ⟨_, _, rfl, h.left⟩
  | finished _ h =>
    refine iff_of_false (by simp [h.timers]) ?_
    intro hex
    obtain ⟨_, _, hsame, hlt⟩ := hex
    cases hsame
    have := h.done
    omega

theorem shown_last {shown past before queue : List SingleFloat} {progress : SingleFloat}
    {seconds : ℤ} {k : ℕ} (hscreen : shown = past ++ progress :: queue)
    (hvalues : shown = before ++ sincePress seconds k) :
    (progress :: queue).getLast (by simp) = quotient k seconds := by
  have hlast : shown.getLast? = some (quotient k seconds) := by
    rw [hvalues, List.getLast?_append, sincePress_getLast]
    rfl
  rw [hscreen, List.getLast?_append, List.getLast?_eq_some_getLast (by simp)] at hlast
  simpa using hlast

theorem follows_exact (hpos : ∀ title seconds, cookingTime title = some seconds → 0 < seconds)
    {c : Clock} {s : ViewController} (hs : Follows c s) : ExactCountdown cookingTime c s := by
  have hone := phase_oneTimer hs.phase
  refine ⟨?_, ?_, phase_remaining hs.phase, phase_running hs.phase, hs.sounds, hs.screen, ?_, ?_,
    ?_⟩
  · rcases hone with hnone | ⟨_, _, hvalid⟩
    · simp [hnone]
    · simp [hvalid]
  · intro timer htimer
    rcases hone with hnone | ⟨current, hcurrent, hvalid⟩
    · rw [hnone] at htimer
      cases htimer
    · rw [hvalid, List.mem_singleton] at htimer
      rw [htimer, hcurrent]
  · intro seconds k hcooking
    obtain ⟨hseconds, hk⟩ := phase_seconds (hcooking ▸ hs.phase)
    exact ⟨hk, hs.values seconds k hcooking, sincePress_increases hseconds k,
      sincePress_unit hseconds hk⟩
  · intro seconds k hcooking
    obtain ⟨past, hpast⟩ := hs.screen
    obtain ⟨before, hbefore⟩ := hs.values seconds k hcooking
    obtain ⟨-, hk⟩ := phase_seconds (hcooking ▸ hs.phase)
    refine ⟨_, drain_ok s, ?_⟩
    rw [shown_last hpast hbefore]
    exact quotient_shown hk
  · intro e he
    obtain ⟨r, hr, _, hannounces⟩ := handle_follows hpos hs he
    exact ⟨r, hr, hannounces⟩

/-- For all positive cooking times and every run of presses, ticks of the valid timer and
blocks of the main queue, the controller counts exactly as the clock does. -/
theorem exact_countdown (cookingTime : String → Option ℤ)
    (hpos : ∀ title seconds, cookingTime title = some seconds → 0 < seconds)
    (events : List Event) (hdelivered : AtEach Delivered (handle cookingTime) launch events) :
    ∃ s, exec (handle cookingTime) launch events = .ok s ∧
      ExactCountdown cookingTime (clock cookingTime events) s := by
  obtain ⟨s, hs, hfollows⟩ := run_follows hpos hdelivered
  exact ⟨s, hs, follows_exact hpos hfollows⟩

/- The first second of a soft egg is not exactly a three-hundredth on the screen. -/
def softSecond : List Event :=
  [.hardnessButtonPressed (some "Soft"), .timerFires 0, .mainQueueBlock, .mainQueueBlock]

theorem softSecond_not_exact :
    AtEach Delivered (handle eggSeconds) launch softSecond ∧
      (clock eggSeconds softSecond).cooking = some (300, 1) ∧
      ∃ s, exec (handle eggSeconds) launch softSecond = .ok s ∧ s.mainQueue = [] ∧
        s.progressBarView.value ≠ 1 / 300 :=
  ⟨by decide +kernel, rfl, _, rfl, rfl, by decide +kernel⟩

/- A soft egg, given up after two seconds for a hard one. -/
theorem soft_then_hard :
    ∃ s, exec (handle eggSeconds) launch
        [.hardnessButtonPressed (some "Soft"), .timerFires 0, .mainQueueBlock, .timerFires 0,
          .hardnessButtonPressed (some "Hard"), .timerFires 1] = .ok s ∧
      ExactCountdown eggSeconds (clock eggSeconds
        [.hardnessButtonPressed (some "Soft"), .timerFires 0, .mainQueueBlock, .timerFires 0,
          .hardnessButtonPressed (some "Hard"), .timerFires 1]) s :=
  exact_countdown eggSeconds eggSeconds_pos _ (by decide +kernel)

end PracticeApps.EggTimer
