import PracticeApps.Clima.WeatherViewController
import PracticeApps.Network.Session

/-!
# The fetches of the screen (WeatherLoader.swift)

A search and a fix are fetches of the weather loader, and the weather that the
completion handler is called with ends on the main queue.
-/

namespace PracticeApps.Clima
open EventMachine Network Requests

variable {Data : Type} (text : Interpolation) (decode : Data → Except String CityWeather)

/- `fetchWeather` and `request`. -/
def weatherLoader : Loader FetchWeatherRequestType Data CityWeather where
  url fetchType := WeatherLoader.getUrl (WeatherLoader.urlQueryItems text fetchType)
  url_ok fetchType := ⟨_, WeatherLoader.getUrl_ok (WeatherLoader.urlQueryItems text fetchType)⟩
  decode := decode

variable {text}

def sentSearch (s : WeatherViewController text) (city : String) :
    List (NetworkEvent FetchWeatherRequestType Data) :=
  if city = "" then [] else [.fetch s.intents (.cityName city)]

def sent (s : WeatherViewController text) :
    Event Data → List (NetworkEvent FetchWeatherRequestType Data)
  | .searchButtonPressed city => sentSearch s city
  | .textFieldShouldReturn city => sentSearch s city
  | .didUpdateLocations number _ locations =>
    match locations.getLast? with
    | none => []
    | some location => [.fetch number (.geoLocation location.latitude location.longitude)]
  | .answer number response => [.answer number response]
  | .viewDidAppear | .getLocationButtonPressed | .didFailWithError _ | .runMain _ => []

theorem answer_notMem_sentSearch {s : WeatherViewController text} {city : String} {number : ℕ}
    {response : Response Data} : NetworkEvent.answer number response ∉ sentSearch s city := by
  unfold sentSearch
  split <;> simp

theorem answer_of_sent {s : WeatherViewController text} {e : Event Data} {number : ℕ}
    {response : Response Data} (h : NetworkEvent.answer number response ∈ sent s e) :
    e = .answer number response := by
  cases e with
  | answer m other =>
    simp only [sent, List.mem_singleton, NetworkEvent.answer.injEq] at h
    rw [h.1, h.2]
  | searchButtonPressed city => exact absurd h answer_notMem_sentSearch
  | textFieldShouldReturn city => exact absurd h answer_notMem_sentSearch
  | didUpdateLocations m merged locations =>
    unfold sent at h
    dsimp only at h
    split at h <;> simp at h
  | viewDidAppear => cases h
  | getLocationButtonPressed => cases h
  | didFailWithError m => cases h
  | runMain m => cases h

def networkTrap : AppTrap → Option Trap
  | .network t => some t
  | .indexOutOfRange _ _ => none

def DataTask.task (t : DataTask text) : Task := ⟨t.number, t.url⟩

/- The tasks are those of the session, and every update on the main queue was left by
a call of the completion handler. -/
structure OverSession (s : WeatherViewController text) (session : Session CityWeather) : Prop where
  tasks : session.tasks = s.tasks.map DataTask.task
  mainQueue : s.mainQueue.Sublist (session.calls.flatMap fun call => completion call.1 call.2)

theorem overSession_start :
    OverSession (viewDidLoad : WeatherViewController text) Session.start :=
  ⟨rfl, List.Sublist.refl _⟩

variable {decode}

theorem requestLocation_over {s : WeatherViewController text} {session : Session CityWeather}
    (h : OverSession s session) : OverSession (requestLocation s) session :=
  ⟨h.tasks, h.mainQueue⟩

theorem fetchWeather_over {s : WeatherViewController text} {session : Session CityWeather}
    (h : OverSession s session) (number : ℕ) (fetchType : FetchWeatherRequestType) :
    Over OverSession networkTrap (fetchWeather number fetchType s)
      ((weatherLoader text decode).step session (.fetch number fetchType)) := by
  obtain ⟨task, hnumber, hfetchType, hfetch⟩ := fetchWeather_eq number fetchType s
  have hurl : (weatherLoader text decode).url fetchType = .ok task.url := by
    rw [← hfetchType]
    exact task.asked
  simp only [hfetch, Loader.step, Loader.fetch, hurl]
  refine ⟨?_, h.mainQueue⟩
  rw [h.tasks, List.map_append, List.map_singleton, ← hnumber]
  rfl

theorem search_over {s : WeatherViewController text} {session : Session CityWeather}
    (h : OverSession s session) (city : String) :
    Over OverSession networkTrap (search city s)
      (exec (weatherLoader text decode).step session (sentSearch s city)) := by
  unfold search sentSearch
  by_cases hcity : city = ""
  · rw [if_pos hcity, if_pos hcity, exec_nil]
    exact h
  · rw [if_neg hcity, if_neg hcity, exec_singleton]
    have hcounted : OverSession { s with intents := s.intents + 1 } session :=
      ⟨h.tasks, h.mainQueue⟩
    exact fetchWeather_over hcounted _ _

theorem didUpdateLocations_over {s : WeatherViewController text} {session : Session CityWeather}
    (h : OverSession s session) (number : ℕ) (merged : List ℕ) (locations : List CLLocation) :
    Over OverSession networkTrap (didUpdateLocations number merged locations s)
      (exec (weatherLoader text decode).step session
        (sent s (.didUpdateLocations number merged locations : Event Data))) := by
  cases hlast : locations.getLast? with
  | none =>
    simp only [didUpdateLocations, sent, hlast, exec_nil]
    exact ⟨h.tasks, h.mainQueue⟩
  | some location =>
    simp only [didUpdateLocations, sent, hlast, exec_singleton]
    have hanswered : OverSession { s with
        locationRequests := (s.locationRequests.erase number).diff merged } session :=
      ⟨h.tasks, h.mainQueue⟩
    exact fetchWeather_over hanswered _ _

theorem answer_over {s : WeatherViewController text} {session : Session CityWeather}
    (h : OverSession s session) (number : ℕ) (response : Response Data) :
    Over OverSession networkTrap (handle decode s (.answer number response))
      (exec (weatherLoader text decode).step session
        (sent s (.answer number response : Event Data))) := by
  cases htask : pick DataTask.number number s.tasks with
  | none =>
    have hstep := answer_unknown (weatherLoader text decode) DataTask.task h.tasks response htask
    simp only [handle, sent, htask, exec_singleton, hstep]
    exact h
  | some picked =>
    obtain ⟨task, tasks⟩ := picked
    have hstep := answer_known (weatherLoader text decode) DataTask.task h.tasks response htask
    have hdecode : (weatherLoader text decode).decode = decode := rfl
    simp only [handle, sent, htask, exec_singleton, hstep, request, Loader.answer, hdecode]
    obtain ⟨results, trap⟩ := handleResponse decode response
    cases trap with
    | some t => rfl
    | none =>
      refine ⟨rfl, ?_⟩
      rw [List.flatMap_append, List.flatMap_map]
      exact h.mainQueue.append (List.Sublist.refl _)

theorem runMain_over {s : WeatherViewController text} {session : Session CityWeather}
    (h : OverSession s session) (number : ℕ) :
    Over OverSession networkTrap (handle decode s (.runMain number)) (.ok session) := by
  cases hpick : pick Prod.fst number s.mainQueue with
  | none =>
    simp only [handle, hpick]
    exact h
  | some picked =>
    obtain ⟨update, mainQueue⟩ := picked
    have hrest := (pick_sublist hpick).trans h.mainQueue
    simp only [handle, hpick, updateUI]
    cases hname : getWeatherConditionImageName update.2 with
    | ok name => exact ⟨h.tasks, hrest⟩
    | error t =>
      have hown : networkTrap t = none := by
        unfold getWeatherConditionImageName at hname
        split at hname <;> cases hname
        rfl
      exact hown

theorem handle_over {s : WeatherViewController text} {session : Session CityWeather}
    (h : OverSession s session) (e : Event Data) :
    Over OverSession networkTrap (handle decode s e)
      (exec (weatherLoader text decode).step session (sent s e)) := by
  cases e with
  | viewDidAppear => exact requestLocation_over h
  | getLocationButtonPressed => exact requestLocation_over h
  | searchButtonPressed city => exact search_over h city
  | textFieldShouldReturn city => exact search_over h city
  | didUpdateLocations number merged locations =>
    exact didUpdateLocations_over h number merged locations
  | didFailWithError number => exact ⟨h.tasks, h.mainQueue⟩
  | answer number response => exact answer_over h number response
  | runMain number => exact runMain_over h number

/-- A run of the screen is a run of the session, on the fetches and answers of the screen. -/
theorem run_over (text : Interpolation) (decode : Data → Except String CityWeather)
    (events : List (Event Data)) :
    Over OverSession networkTrap
      (exec (handle decode) (viewDidLoad : WeatherViewController text) events)
      (exec (weatherLoader text decode).step Session.start
        (relayed sent (handle decode) (viewDidLoad : WeatherViewController text) events)) :=
  exec_over (fun _ _ e h => handle_over h e) overSession_start events

/-- The network stops the screen only by an answer without a body. -/
theorem network_trap {events : List (Event Data)} {t : Trap}
    (ht : exec (handle decode) (viewDidLoad : WeatherViewController text) events =
      .error (.network t)) :
    t = .unwrappedNil ∧ ∃ number response, Event.answer number response ∈ events ∧
      response.data = none := by
  have hover := run_over text decode events
  rw [ht] at hover
  obtain ⟨hnil, number, response, hr, hdata⟩ := trap_inv (over_error hover rfl)
  obtain ⟨e, he, s, hsent⟩ := mem_relayed hr
  exact ⟨hnil, number, response, answer_of_sent hsent ▸ he, hdata⟩

end PracticeApps.Clima
