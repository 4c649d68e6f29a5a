import PracticeApps.Clima.Timeline

/-!
# The weather shown and the latest intent

Searches are fetched at once and locations after their fix, and every answer
is displayed when it comes. The screen keeps the answer displayed last.
-/

namespace PracticeApps.Clima
open DecimalText EventMachine Network Requests

variable {Data : Type}

/-- If everything succeeds, then once nothing is outstanding the screen shows the answer to
the most recent intent exactly when the update that ran last is the one of that intent,
or shows the same city, temperature and icon. -/
theorem weather_shows_latest_iff (text : Interpolation) (decode : Data → Except String CityWeather)
    (events : List (Event Data)) (s : WeatherViewController text) (latest : ℕ)
    (hrun : exec (handle decode) viewDidLoad events = .ok s)
    (hsucceeds : AtEach (Succeeds decode) (handle decode) (viewDidLoad : WeatherViewController text)
      events)
    (hquiet : Quiet s) (hlatest : intents events = latest + 1) :
    (answerTo latest (timeline decode events)).map (look text) = some (screen s) ↔
      ∃ n, lastDisplayed (timeline decode events) = some n ∧
        (answerTo n (timeline decode events)).map (look text) =
          (answerTo latest (timeline decode events)).map (look text) := by
  obtain ⟨race, hrace, href, hkeeps⟩ := run_refines hsucceeds hrun
  have hissued : race.issued = latest + 1 := by
    rw [run_issued hrace, timeline_issued, hlatest]
  have hrest : race.Quiet := refines_quiet href hquiet
  have hkept : Move.abandon latest ∉ timeline decode events := by
    intro h
    have hlt := hkeeps latest h
    omega
  obtain ⟨shown, hshown, hiff⟩ := quiet_shows_latest_iff (look text) hrace hrest hissued hkept
  have hscreen : screen s = look text shown := by
    rw [href.screen, hshown]
    rfl
  rw [hscreen]
  exact hiff

/-! ### A location and a search -/

def londonBody : String :=
  "\x7b\"weather\":[\x7b\"id\":300,\"main\":\"Drizzle\",\"description\":\"drizzle\",\"icon\":\"09d\"\x7d]," ++
    "\"main\":\x7b\"temp\":7.5,\"feels_like\":5.5,\"temp_min\":6.5,\"temp_max\":8.5,\"pressure\":1012," ++
    "\"humidity\":81\x7d,\"name\":\"London\"\x7d"

def parisBody : String :=
  "\x7b\"weather\":[\x7b\"id\":803,\"main\":\"Clouds\",\"description\":\"clouds\",\"icon\":\"04d\"\x7d]," ++
    "\"main\":\x7b\"temp\":12.5,\"feels_like\":11.5,\"temp_min\":10.5,\"temp_max\":14.5,\"pressure\":1019," ++
    "\"humidity\":64\x7d,\"name\":\"Paris\"\x7d"

def decodeBody (body : String) : Except String CityWeather :=
  if body = londonBody then .ok ⟨[⟨300⟩], ⟨75 / 10⟩, "London"⟩
  else if body = parisBody then .ok ⟨[⟨803⟩], ⟨125 / 10⟩, "Paris"⟩
  else .error "The data is not in the correct format."

/- Numbers with one decimal, as they are interpolated. -/
def oneDecimal : Interpolation := ⟨formatFixed 1, formatFixed 1⟩

def london : CLLocation := ⟨515 / 10, 0⟩

def atRest (intents : ℕ) (cityLabel temperatureLabel conditionImage : String) :
    WeatherViewController oneDecimal :=
  { viewDidLoad with
    cityLabel := cityLabel, temperatureLabel := temperatureLabel.toList,
    conditionImage := conditionImage, intents := intents }

/- One fix for the launch and the location button, then a search. -/
def parisLast : List (Event String) :=
  [.viewDidAppear, .getLocationButtonPressed, .searchButtonPressed "Paris",
    .didUpdateLocations 1 [0] [london], .answer 1 ⟨some londonBody, none⟩,
    .answer 2 ⟨some parisBody, none⟩, .runMain 1, .runMain 2]

theorem paris_shown :
    (answerTo 2 (timeline decodeBody parisLast)).map (look oneDecimal) =
      some (screen (atRest 3 "Paris" "12.5" "cloud")) :=
  (weather_shows_latest_iff oneDecimal decodeBody parisLast (atRest 3 "Paris" "12.5" "cloud") 2
    (by decide +kernel) (by decide +kernel) ⟨rfl, rfl, rfl⟩ (by decide +kernel)).mpr
    ⟨2, by decide +kernel, rfl⟩

/- The fix of the launch comes after the search has been shown, and overwrites it. -/
def londonLate : List (Event String) :=
  [.viewDidAppear, .searchButtonPressed "Paris", .answer 1 ⟨some parisBody, none⟩, .runMain 1,
    .didUpdateLocations 0 [] [london], .answer 0 ⟨some londonBody, none⟩, .runMain 0]

theorem paris_searched_london_shown :
    ¬ ∀ (events : List (Event String)) (s : WeatherViewController oneDecimal) (latest : ℕ),
      exec (handle decodeBody) viewDidLoad events = .ok s →
      AtEach (Succeeds decodeBody) (handle decodeBody)
        (viewDidLoad : WeatherViewController oneDecimal) events →
      Quiet s → intents events = latest + 1 →
      (answerTo latest (timeline decodeBody events)).map (look oneDecimal) = some (screen s) := by
  intro h
  have hscreen := h londonLate (atRest 2 "London" "7.5" "cloud.drizzle") 1 (by decide +kernel)
    (by decide +kernel) ⟨rfl, rfl, rfl⟩ (by decide +kernel)
  revert hscreen
  decide +kernel

end PracticeApps.Clima
