import PracticeApps.Clima.WeatherViewController

/-!
# A run of the weather screen as a race

An intent issues a request. Its answer waits on the main queue until it is
displayed; a location request that is merged into a later one is abandoned.
-/

namespace PracticeApps.Clima
open DecimalText EventMachine Network Requests

variable {Data : Type} {text : Interpolation} (decode : Data → Except String CityWeather)

/-! ### What the events say -/

/- An intent of the user; an empty search text asks for nothing. -/
def isIntent : Event Data → Bool
  | .viewDidAppear => true
  | .getLocationButtonPressed => true
  | .searchButtonPressed city => city ≠ ""
  | .textFieldShouldReturn city => city ≠ ""
  | _ => false

def intents (events : List (Event Data)) : ℕ := events.countP isIntent

/- Every fix has a location and every answer is a success; fixes, answers and blocks
come only where they are due, and requests are merged into a later one only. -/
def Succeeds (s : WeatherViewController text) : Event Data → Prop
  | .didUpdateLocations number merged locations =>
    locations ≠ [] ∧ number ∈ s.locationRequests ∧
      (merged : Multiset ℕ) ≤ (s.locationRequests.erase number : List ℕ) ∧
      ∀ m ∈ merged, m < number
  | .didFailWithError _ => False
  | .answer number response =>
    (pick DataTask.number number s.tasks).isSome ∧ (decoded decode response).isSome
  | .runMain number => (pick Prod.fst number s.mainQueue).isSome
  | _ => True

instance (s : WeatherViewController text) (e : Event Data) : Decidable (Succeeds decode s e) := by
  cases e <;> unfold Succeeds <;> infer_instance

def Quiet (s : WeatherViewController text) : Prop :=
  s.locationRequests = [] ∧ s.tasks = [] ∧ s.mainQueue = []

/-! ### The moves of the race -/

def moves (e : Event Data) : List (Move CityWeather) :=
  match e with
  | .didUpdateLocations _ merged _ => merged.map .abandon
  | .didFailWithError number => [.abandon number]
  | .answer number response => (decoded decode response).toList.map (.answer number)
  | .runMain number => [.display number]
  | e => if isIntent e then [.issue] else []

def timeline (events : List (Event Data)) : List (Move CityWeather) := events.flatMap (moves decode)

variable {decode}

theorem timeline_concat (events : List (Event Data)) (e : Event Data) :
    timeline decode (events ++ [e]) = timeline decode events ++ moves decode e := by
  unfold timeline
  rw [List.flatMap_append, List.flatMap_singleton]

theorem countP_isIssue_map {B : Type} {f : B → Move CityWeather} (hf : ∀ b, (f b).isIssue = false)
    (l : List B) : (l.map f).countP Move.isIssue = 0 := by
  rw [List.countP_map, List.countP_eq_zero]
  intro b _
  rw [Function.comp_apply, hf b]
  simp

theorem timeline_issued (events : List (Event Data)) :
    (timeline decode events).countP Move.isIssue = intents events := by
  unfold timeline intents
  induction events with
  | nil => rfl
  | cons e events ih =>
    have hmoves : (moves decode e).countP Move.isIssue = if isIntent e then 1 else 0 := by
      cases e with
      | viewDidAppear => rfl
      | getLocationButtonPressed => rfl
      | searchButtonPressed city => by_cases h : city = "" <;> simp [moves, isIntent, h, Move.isIssue]
      | textFieldShouldReturn city =>
        by_cases h : city = "" <;> simp [moves, isIntent, h, Move.isIssue]
      | didUpdateLocations number merged locations => exact countP_isIssue_map (fun _ => rfl) merged
      | didFailWithError number => rfl
      | answer number response => exact countP_isIssue_map (fun _ => rfl) _
      | runMain number => rfl
    rw [List.flatMap_cons, List.countP_append, ih, List.countP_cons, hmoves, Nat.add_comm]

/-! ### The screen shows the answer displayed last -/

/- What an answer puts on the screen; an answer without a weather has no image. -/
def look (text : Interpolation) (weather : CityWeather) : String × Text × Option String :=
  (weather.name, text.float weather.main.temp,
    (getWeatherConditionImageName weather).toOption)

def screen (s : WeatherViewController text) : String × Text × Option String :=
  (s.cityLabel, s.temperatureLabel, some s.conditionImage)

structure Refines (s : WeatherViewController text) (race : Race CityWeather) : Prop where
  issued : race.issued = s.intents
  pending : race.pending = (s.locationRequests ++ s.tasks.map DataTask.number : List ℕ)
  waiting : race.waiting = s.mainQueue
  screen : screen s =
    (race.shown.map (look text)).getD (screen (viewDidLoad : WeatherViewController text))

theorem refines_start : Refines (viewDidLoad : WeatherViewController text) Race.start :=
  ⟨rfl, rfl, rfl, rfl⟩

theorem fetchWeather_ok {number : ℕ} {fetchType : FetchWeatherRequestType}
    {s r : WeatherViewController text} (h : fetchWeather number fetchType s = .ok r) :
    ∃ task : DataTask text, task.number = number ∧ task.fetchType = fetchType ∧
      r = { s with tasks := s.tasks ++ [task] } := by
  obtain ⟨task, hnumber, hfetchType, hfetch⟩ := fetchWeather_eq number fetchType s
  rw [hfetch] at h
  cases h
  exact ⟨task, hnumber, hfetchType, rfl⟩

theorem requestLocation_refines {s : WeatherViewController text} {race : Race CityWeather}
    {ms : List (Move CityWeather)} (hrun : Run ms race) (hs : Refines s race) :
    ∃ race', Run (ms ++ [.issue]) race' ∧ Refines (requestLocation s) race' := by
  refine ⟨_, Run.next hrun (.issue race), ?_, ?_, hs.waiting, hs.screen⟩
  · show race.issued + 1 = s.intents + 1
    rw [hs.issued]
  · show race.issued ::ₘ race.pending = _
    rw [cons_eq_middle hs.pending, hs.issued]
    rfl

theorem search_refines {s r : WeatherViewController text} {race : Race CityWeather} {city : String}
    {ms : List (Move CityWeather)} (hrun : Run ms race) (hs : Refines s race)
    (hr : search city s = .ok r) :
    ∃ race', Run (ms ++ if city ≠ "" then [.issue] else []) race' ∧ Refines r race' := by
  unfold search at hr
  split at hr
  next hempty =>
    cases hr
    refine ⟨race, ?_, hs⟩
    rw [if_neg (not_not.mpr hempty), List.append_nil]
    exact hrun
  next hcity =>
    obtain ⟨task, hnumber, _, hr⟩ := fetchWeather_ok hr
    rw [if_pos hcity, hr]
    refine ⟨_, Run.next hrun (.issue race), ?_, ?_, hs.waiting, hs.screen⟩
    · show race.issued + 1 = s.intents + 1
      rw [hs.issued]
    · show race.issued ::ₘ race.pending = _
      rw [cons_eq_concat hs.pending, hs.issued]
      simp [hnumber]

/- The fix turns its location request into a task and ends the merged requests. -/
theorem didUpdateLocations_refines {s r : WeatherViewController text} {race : Race CityWeather}
    {number : ℕ} {merged : List ℕ} {locations : List CLLocation} {ms : List (Move CityWeather)}
    (hrun : Run ms race) (hs : Refines s race) (hlocations : locations ≠ [])
    (hnumber : number ∈ s.locationRequests)
    (hmerged : (merged : Multiset ℕ) ≤ (s.locationRequests.erase number : List ℕ))
    (hr : didUpdateLocations number merged locations s = .ok r) :
    ∃ race', Run (ms ++ merged.map .abandon) race' ∧ Refines r race' := by
  let left : List ℕ := (s.locationRequests.erase number).diff merged
  obtain ⟨location, hlast⟩ : ∃ location, locations.getLast? = some location :=
    ⟨_, List.getLast?_eq_getLast_of_ne_nil hlocations⟩
  unfold didUpdateLocations at hr
  rw [hlast] at hr
  obtain ⟨task, htask, _, hr⟩ := fetchWeather_ok hr
  have hrequests : (s.locationRequests : Multiset ℕ) = number ::ₘ ((merged : Multiset ℕ) + left) := by
    have hleft : (left : Multiset ℕ) = (s.locationRequests.erase number : List ℕ) - merged := rfl
    rw [hleft, add_tsub_cancel_of_le hmerged, ← Multiset.coe_erase]
    exact (Multiset.cons_erase hnumber).symm
  have hpending : race.pending = (merged : Multiset ℕ) +
      (left ++ (s.tasks ++ [task]).map DataTask.number : List ℕ) := by
    rw [hs.pending, ← Multiset.coe_add, hrequests, ← Multiset.coe_add, List.map_append,
      ← Multiset.coe_add, List.map_singleton, htask, Multiset.coe_singleton,
      ← Multiset.singleton_add]
    ac_rfl
  obtain ⟨race', hrun', hi, hp, hw, hd⟩ := run_abandons hrun hpending
  refine ⟨race', hrun', ?_, ?_, ?_, ?_⟩
  · rw [hi, hs.issued, hr]
  · rw [hp, hr]
  · rw [hw, hs.waiting, hr]
  · have hshown : race'.shown = race.shown := by
      unfold Race.shown
      rw [hd]
    rw [hshown, hr]
    exact hs.screen

theorem answer_refines {s : WeatherViewController text} {race : Race CityWeather}
    {task : DataTask text} {tasks : List (DataTask text)} {weather : CityWeather}
    {ms : List (Move CityWeather)} (hrun : Run ms race) (hs : Refines s race)
    (hperm : (s.tasks : Multiset (DataTask text)) = task ::ₘ (tasks : Multiset (DataTask text))) :
    ∃ race', Run (ms ++ [.answer task.number weather]) race' ∧
      Refines { s with tasks := tasks, mainQueue := s.mainQueue ++ [(task.number, weather)] }
        race' := by
  have hpending : race.pending = task.number ::ₘ
      (s.locationRequests ++ tasks.map DataTask.number : List ℕ) := by
    rw [hs.pending, ← Multiset.coe_add, map_eq_cons DataTask.number hperm, Multiset.add_cons,
      Multiset.coe_add]
  exact ⟨_, Run.next hrun (.answer weather hpending), hs.issued, rfl,
    cons_eq_concat hs.waiting _, hs.screen⟩

theorem runMain_refines {s r : WeatherViewController text} {race : Race CityWeather}
    {update : ℕ × CityWeather} {mainQueue : List (ℕ × CityWeather)} {ms : List (Move CityWeather)}
    (hrun : Run ms race) (hs : Refines s race)
    (hperm : (s.mainQueue : Multiset (ℕ × CityWeather)) =
      update ::ₘ (mainQueue : Multiset (ℕ × CityWeather)))
    (hr : updateUI update.2 { s with mainQueue := mainQueue } = .ok r) :
    ∃ race', Run (ms ++ [.display update.1]) race' ∧ Refines r race' := by
  have hwaiting : race.waiting = (update.1, update.2) ::ₘ (mainQueue : Multiset _) :=
    hs.waiting.trans hperm
  unfold updateUI at hr
  split at hr
  · cases hr
  next name hname =>
    cases hr
    refine ⟨_, Run.next hrun (.display hwaiting), hs.issued, hs.pending, rfl, ?_⟩
    unfold Race.shown
    rw [List.getLast?_concat, Option.map_some, Option.map_some, Option.getD_some]
    unfold look screen
    rw [hname]
    rfl

/- One event is at most one move, or the end of several merged requests. -/
theorem handle_refines {s r : WeatherViewController text} {race : Race CityWeather} {e : Event Data}
    {ms : List (Move CityWeather)} (hrun : Run ms race) (hs : Refines s race)
    (he : Succeeds decode s e) (hr : handle decode s e = .ok r) :
    ∃ race', Run (ms ++ moves decode e) race' ∧ Refines r race' := by
  cases e with
  | viewDidAppear =>
    cases hr
    exact requestLocation_refines hrun hs
  | getLocationButtonPressed =>
    cases hr
    exact requestLocation_refines hrun hs
  | searchButtonPressed city =>
    have hsearch := search_refines (r := r) hrun hs hr
    by_cases hcity : city = "" <;> simpa [moves, isIntent, hcity] using hsearch
  | textFieldShouldReturn city =>
    have hsearch := search_refines (r := r) hrun hs hr
    by_cases hcity : city = "" <;> simpa [moves, isIntent, hcity] using hsearch
  | didUpdateLocations number merged locations =>
    obtain ⟨hlocations, hnumber, hmerged, _⟩ := he
    exact didUpdateLocations_refines hrun hs hlocations hnumber hmerged hr
  | didFailWithError number => exact he.elim
  | answer number response =>
    obtain ⟨⟨task, tasks⟩, hpick⟩ := Option.isSome_iff_exists.mp he.1
    obtain ⟨weather, hdecoded⟩ := Option.isSome_iff_exists.mp he.2
    obtain ⟨hnumber, hperm⟩ := pick_some hpick
    have hr : ({ s with tasks := tasks, mainQueue := s.mainQueue ++ [(task.number, weather)] } :
        WeatherViewController text) = r := by
      simp only [handle, hpick, request, handleResponse_decoded hdecoded, completion,
        List.flatMap_singleton] at hr
      cases hr
      rfl
    have hmoves : moves decode (.answer number response) = [.answer task.number weather] := by
      simp only [moves, hdecoded, hnumber, Option.toList_some, List.map_cons, List.map_nil]
    rw [hmoves, ← hr]
    exact answer_refines hrun hs hperm
  | runMain number =>
    obtain ⟨⟨update, mainQueue⟩, hpick⟩ := Option.isSome_iff_exists.mp he
    obtain ⟨hnumber, hperm⟩ := pick_some hpick
    have hr : updateUI update.2 { s with mainQueue := mainQueue } = .ok r := by
      simpa only [handle, hpick] using hr
    have hmoves : moves decode (.runMain number : Event Data) = [.display update.1] := by
      rw [hnumber]
      rfl
    rw [hmoves]
    exact runMain_refines hrun hs hperm hr

/-! ### The latest intent is never abandoned -/

theorem moves_abandon_lt {s : WeatherViewController text} {race : Race CityWeather} {e : Event Data}
    {ms : List (Move CityWeather)} {n : ℕ} (hrun : Run ms race) (hs : Refines s race)
    (he : Succeeds decode s e) (hn : Move.abandon n ∈ moves decode e) : n + 1 < race.issued := by
  cases e with
  | didUpdateLocations number merged locations =>
    obtain ⟨_, hnumber, _, hearlier⟩ := he
    have hpending : number ∈ race.pending := by
      rw [hs.pending]
      exact Multiset.mem_coe.mpr (List.mem_append_left _ hnumber)
    have hlt := run_number_lt hrun hpending
    obtain ⟨m, hm, hmn⟩ := List.mem_map.mp hn
    cases hmn
    have hmerged := hearlier n hm
    omega
  | didFailWithError number => exact he.elim
  | viewDidAppear => simp [moves, isIntent] at hn
  | getLocationButtonPressed => simp [moves, isIntent] at hn
  | searchButtonPressed city => by_cases h : city = "" <;> simp [moves, isIntent, h] at hn
  | textFieldShouldReturn city => by_cases h : city = "" <;> simp [moves, isIntent, h] at hn
  | answer number response => simp [moves] at hn
  | runMain number => simp [moves] at hn

def KeepsLatest (ms : List (Move CityWeather)) (race : Race CityWeather) : Prop :=
  ∀ n, Move.abandon n ∈ ms → n + 1 < race.issued

theorem run_refines {events : List (Event Data)} {s : WeatherViewController text}
    (hsucceeds : AtEach (Succeeds decode) (handle decode)
      (viewDidLoad : WeatherViewController text) events)
    (hr : exec (handle decode) viewDidLoad events = .ok s) :
    ∃ race, Run (timeline decode events) race ∧ Refines s race ∧
      KeepsLatest (timeline decode events) race := by
  refine exec_history (I := fun events s => ∃ race, Run (timeline decode events) race ∧
    Refines s race ∧ KeepsLatest (timeline decode events) race)
    ⟨Race.start, .start, refines_start, fun _ h => (List.not_mem_nil h).elim⟩ ?_ hsucceeds hr
  intro es s e r hs he hr
  obtain ⟨race, hrun, href, hkeeps⟩ := hs
  obtain ⟨race', hrun', href'⟩ := handle_refines hrun href he hr
  have hissued : race.issued ≤ race'.issued := by
    rw [run_issued hrun, run_issued hrun', List.countP_append]
    omega
  rw [timeline_concat]
  refine ⟨race', hrun', href', ?_⟩
  intro n hn
  rcases List.mem_append.mp hn with hn | hn
  · have hlt := hkeeps n hn
    omega
  · have hlt := moves_abandon_lt hrun href he hn
    omega

theorem refines_quiet {s : WeatherViewController text} {race : Race CityWeather}
    (h : Refines s race) (hquiet : Quiet s) : race.Quiet := by
  obtain ⟨hrequests, htasks, hmain⟩ := hquiet
  constructor
  · rw [h.pending, hrequests, htasks]
    rfl
  · rw [h.waiting, hmain]
    rfl

end PracticeApps.Clima
