import Mathlib.Data.List.Induction
import PracticeApps.EggTimer.Countdown

/-!
# The label after the first egg

A press puts back the seconds and the progress bar. The label is written at the
end of a countdown only, so from then on it reads "Done!" through every further
one.
-/

namespace PracticeApps.EggTimer
open EventMachine

variable {cookingTime : String → Option ℤ}

/-- While the timer is valid, the label is not "Done!". -/
def NotDoneWhileCooking : Except Trap ViewController → Prop
  | .ok s => isValid s = true → s.textLabel ≠ "Done!"
  | .error _ => False

/-- No egg is started after a countdown that ran to its end. -/
def NoPressAfterDone (cookingTime : String → Option ℤ) (events : List Event) : Prop :=
  ∀ u title v, events = u ++ .hardnessButtonPressed (some title) :: v → cookingTime title ≠ none →
    (clock cookingTime u).completions = 0

namespace Clock

def Running (c : Clock) : Prop := ∃ seconds k, c.cooking = some (seconds, k) ∧ (k : ℤ) < seconds

end Clock

/-! ### The label counts no countdown but tells that there was one -/

theorem completions_of_completes {c : Clock} {e : Event} (h : Completes c e) :
    (c.step cookingTime e).completions = c.completions + 1 := by
  obtain ⟨timer, seconds, k, rfl, hcooking, hlast⟩ := h
  show c.second.completions = _
  rw [second_eq hcooking]
  dsimp only
  rw [if_pos hlast]

theorem completions_of_not_completes {c : Clock} {e : Event} (h : ¬ Completes c e) :
    (c.step cookingTime e).completions = c.completions := by
  cases e with
  | hardnessButtonPressed title =>
    unfold Clock.step
    dsimp only
    split <;> rfl
  | timerFires timer =>
    show c.second.completions = _
    cases hcooking : c.cooking with
    | none => simp only [Clock.second, hcooking]
    | some p =>
      obtain ⟨seconds, k⟩ := p
      rw [completes_iff hcooking] at h
      rw [second_eq hcooking]
      dsimp only
      rw [if_neg h, Nat.add_zero]
  | mainQueueBlock => rfl

structure Labelled (c : Clock) (s : ViewController) : Prop where
  follows : Follows c s
  label : s.textLabel = "Done!" ↔ 0 < c.completions

theorem label_step {c : Clock} {s r : ViewController} {e : Event}
    (hs : s.textLabel = "Done!" ↔ 0 < c.completions) (h : Announces c s e r) :
    r.textLabel = "Done!" ↔ 0 < (c.step cookingTime e).completions := by
  by_cases hcompletes : Completes c e
  · have hdone := (h.1 hcompletes).1
    rw [completions_of_completes hcompletes]
    exact iff_of_true hdone (by omega)
  · have hsame := (h.2 hcompletes).1
    rw [completions_of_not_completes hcompletes, hsame]
    exact hs

theorem run_labelled (hpos : ∀ title seconds, cookingTime title = some seconds → 0 < seconds)
    {events : List Event} (hdelivered : AtEach Delivered (handle cookingTime) launch events) :
    ∃ s, exec (handle cookingTime) launch events = .ok s ∧
      Labelled (clock cookingTime events) s := by
  have hlaunch : launch.textLabel = "Done!" ↔ 0 < Clock.start.completions := by decide
  refine exec_safe (I := fun events s => Labelled (clock cookingTime events) s)
    ⟨launch_follows, hlaunch⟩ ?_ hdelivered
  intro es s e hs he
  obtain ⟨r, hr, hfollows, hannounces⟩ := handle_follows hpos hs.follows he
  have hlabel : r.textLabel = "Done!" ↔
      0 < ((clock cookingTime es).step cookingTime e).completions :=
    label_step hs.label hannounces
  rw [← clock_concat] at hfollows hlabel
  exact ⟨r, hr, hfollows, hlabel⟩

theorem isValid_iff {s : ViewController} (h : OneTimer s) :
    isValid s = true ↔ s.validTimers ≠ [] := by
  unfold isValid
  rcases h with hnone | ⟨timer, htimer, hvalid⟩
  · cases s.timer <;> simp [hnone]
  · simp [htimer, hvalid]

theorem notDone_iff {c : Clock} {s : ViewController} (h : Labelled c s) :
    NotDoneWhileCooking (.ok s) ↔ (c.Running → c.completions = 0) := by
  have hvalid := isValid_iff (phase_oneTimer h.follows.phase)
  have hrunning := phase_running h.follows.phase
  show (isValid s = true → s.textLabel ≠ "Done!") ↔ _
  rw [hvalid, hrunning, ne_eq, h.label, Nat.not_lt, Nat.le_zero]
  exact Iff.rfl

/-! ### When a countdown runs after another one has ended -/

theorem running_of_second {c : Clock} (timer : ℕ) (h : c.second.Running) :
    c.Running ∧ ¬ Completes c (.timerFires timer) := by
  obtain ⟨seconds', k', hsecond, hlt⟩ := h
  cases hcooking : c.cooking with
  | none =>
    simp only [Clock.second, hcooking] at hsecond
    cases hsecond
  | some p =>
    obtain ⟨seconds, k⟩ := p
    rw [second_eq hcooking] at hsecond
    obtain ⟨hseconds, hk⟩ := Prod.mk.inj (Option.some.inj hsecond)
    have hmore : (k : ℤ) < seconds := by omega
    rw [completes_iff hcooking]
    exact ⟨⟨seconds, k, hcooking, hmore⟩, by omega⟩

/- A run that is fine so far stays so unless an egg is started too late. -/
theorem running_step_iff (hpos : ∀ title seconds, cookingTime title = some seconds → 0 < seconds)
    {c : Clock} (hc : c.Running → c.completions = 0) (e : Event) :
    ((c.step cookingTime e).Running → (c.step cookingTime e).completions = 0) ↔
      ∀ title, e = .hardnessButtonPressed (some title) → cookingTime title ≠ none →
        c.completions = 0 := by
  cases e with
  | hardnessButtonPressed title =>
    cases title with
    | none => exact iff_of_true hc (fun _ h => by cases h)
    | some title =>
      cases htime : cookingTime title with
      | none =>
        have hsame : c.step cookingTime (.hardnessButtonPressed (some title)) = c := by
          simp only [Clock.step, Option.bind_some, htime]
        rw [hsame]
        refine iff_of_true hc ?_
        intro title' htitle hknown
        cases htitle
        exact absurd htime hknown
      | some seconds =>
        have hpress : c.step cookingTime (.hardnessButtonPressed (some title)) =
            c.press seconds := by
          simp only [Clock.step, Option.bind_some, htime]
        rw [hpress]
        constructor
        · intro h _ _ _
          exact h ⟨seconds, 0, rfl, hpos title seconds htime⟩
        · intro h _
          exact h title rfl (by simp [htime])
  | timerFires timer =>
    refine iff_of_true ?_ (fun _ h => by cases h)
    intro hrunning
    obtain ⟨hbefore, hnot⟩ := running_of_second timer hrunning
    rw [completions_of_not_completes hnot]
    exact hc hbefore
  | mainQueueBlock => exact iff_of_true hc (fun _ h => by cases h)

theorem noPressAfterDone_concat {events : List Event} {e : Event} :
    NoPressAfterDone cookingTime (events ++ [e]) ↔ NoPressAfterDone cookingTime events ∧
      ∀ title, e = .hardnessButtonPressed (some title) → cookingTime title ≠ none →
        (clock cookingTime events).completions = 0 := by
  constructor
  · intro h
    constructor
    · intro u title v hsplit hknown
      exact h u title (v ++ [e]) (by rw [hsplit, List.append_assoc, List.cons_append]) hknown
    · intro title he hknown
      exact h events title [] (by rw [he]) hknown
  · intro h u title v hsplit hknown
    rcases List.eq_nil_or_concat' v with rfl | ⟨w, b, rfl⟩
    · obtain ⟨hevents, he⟩ := List.append_inj' hsplit rfl
      rw [← hevents]
      exact h.2 title (List.singleton_inj.mp he) hknown
    · rw [← List.cons_append, ← List.append_assoc] at hsplit
      exact h.1 u title w (List.append_inj' hsplit rfl).1 hknown

theorem running_prefixes_iff
    (hpos : ∀ title seconds, cookingTime title = some seconds → 0 < seconds)
    (events : List Event) :
    (∀ u, u <+: events → (clock cookingTime u).Running → (clock cookingTime u).completions = 0) ↔
      NoPressAfterDone cookingTime events := by
  induction events using List.reverseRecOn with
  | nil =>
    refine iff_of_true ?_ ?_
    · intro u hu _
      rw [List.prefix_nil.mp hu]
      rfl
    · intro u _ _ hsplit
      simp at hsplit
  | append_singleton events e ih =>
    rw [noPressAfterDone_concat, ← ih]
    simp only [List.prefix_concat_iff, forall_eq_or_imp]
    constructor
    · intro h
      obtain ⟨hlast, hbefore⟩ := h
      rw [clock_concat] at hlast
      exact ⟨hbefore, (running_step_iff hpos (hbefore events List.prefix_rfl) e).mp hlast⟩
    · intro h
      obtain ⟨hbefore, hpress⟩ := h
      rw [clock_concat]
      exact ⟨(running_step_iff hpos (hbefore events List.prefix_rfl) e).mpr hpress, hbefore⟩

/-- In every run of presses and ticks, no state has a valid timer under the label "Done!"
exactly when no egg is started after a countdown that ran to its end. -/
theorem done_label_iff (events : List Event)
    (hdelivered : AtEach Delivered (handle eggSeconds) launch events) :
    Accepted NotDoneWhileCooking (handle eggSeconds) launch events ↔
      NoPressAfterDone eggSeconds events := by
  rw [← running_prefixes_iff eggSeconds_pos]
  refine forall_congr' (fun u => imp_congr_right (fun hu => ?_))
  obtain ⟨v, rfl⟩ := hu
  obtain ⟨s, hs, hlabelled⟩ := run_labelled eggSeconds_pos (atEach_append.mp hdelivered).1
  rw [hs]
  exact notDone_iff hlabelled

/- A soft egg given up for a hard one. -/
theorem soft_given_up_label :
    Accepted NotDoneWhileCooking (handle eggSeconds) launch
        [.hardnessButtonPressed (some "Soft"), .timerFires 0, .hardnessButtonPressed (some "Hard"),
          .timerFires 1] ↔
      NoPressAfterDone eggSeconds
        [.hardnessButtonPressed (some "Soft"), .timerFires 0, .hardnessButtonPressed (some "Hard"),
          .timerFires 1] :=
  done_label_iff _ (by decide +kernel)

/- A soft egg to its end, and then another one. -/
def twoSoftEggs : List Event :=
  [.hardnessButtonPressed (some "Soft")] ++ List.replicate 300 (.timerFires 0) ++
    [.hardnessButtonPressed (some "Soft")]

theorem second_egg_reads_done :
    AtEach Delivered (handle eggSeconds) launch twoSoftEggs ∧
      ∃ s, exec (handle eggSeconds) launch twoSoftEggs = .ok s ∧ isValid s = true ∧
        s.textLabel = "Done!" := by
  have hdelivered : AtEach Delivered (handle eggSeconds) launch twoSoftEggs := by decide +kernel
  obtain ⟨s, hs, hlabelled⟩ := run_labelled eggSeconds_pos hdelivered
  have hclock : (clock eggSeconds twoSoftEggs).cooking = some (300, 0) ∧
      (clock eggSeconds twoSoftEggs).completions = 1 := by decide +kernel
  have hvalid : isValid s = true := by
    rw [isValid_iff (phase_oneTimer hlabelled.follows.phase),
      phase_running hlabelled.follows.phase]
    exact ⟨300, 0, hclock.1, by decide⟩
  have hlabel : s.textLabel = "Done!" := by
    rw [hlabelled.label, hclock.2]
    decide
  exact ⟨hdelivered, s, hs, hvalid, hlabel⟩

end PracticeApps.EggTimer
