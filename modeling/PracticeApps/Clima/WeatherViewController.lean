import PracticeApps.Library.DecimalText
import PracticeApps.Library.EventMachine
import PracticeApps.Library.Race
import PracticeApps.Network.DataTask

/-!
# Clima (WeatherViewController.swift, WeatherLoader.swift, CityWeather.swift)

A search is fetched at once, a location intent when its fix arrives. Intents
are numbered in the order in which they are made, so that a run can say whose
turn it is; the code has no such number.
-/

namespace PracticeApps.Clima
open DecimalText EventMachine Network Requests

/-! ### CityWeather.swift -/

structure Weather where
  id : ℤ
  deriving DecidableEq

structure Main where
  temp : ℚ
  deriving DecidableEq

structure CityWeather where
  weather : List Weather
  main : Main
  name : String
  deriving DecidableEq

inductive AppTrap where
  | indexOutOfRange (index count : ℕ)
  | network (trap : Trap)
  deriving DecidableEq, Repr

/- The ranges are tried in the order of the switch. -/
def conditionImageName (id : ℤ) : String :=
  if 200 ≤ id ∧ id ≤ 202 then "cloud.bolt.rain"
  else if 210 ≤ id ∧ id ≤ 221 then "cloud.bolt"
  else if 230 ≤ id ∧ id ≤ 232 then "cloud.bolt.rain"
  else if 300 ≤ id ∧ id ≤ 321 then "cloud.drizzle"
  else if 500 ≤ id ∧ id ≤ 501 then "cloud.rain"
  else if 502 ≤ id ∧ id ≤ 531 then "cloud.heavyrain"
  else if 600 ≤ id ∧ id ≤ 622 then "cloud.snow"
  else if id = 711 then "smoke"
  else if id = 721 then "sun.haze"
  else if id = 731 ∨ id = 761 then "sun.dust"
  else if id = 781 then "tornado"
  else if 801 ≤ id ∧ id ≤ 804 then "cloud"
  else "cloud"

def getWeatherConditionImageName (cityWeather : CityWeather) : Except AppTrap String :=
  match cityWeather.weather with
  | [] => .error (.indexOutOfRange 0 0)
  | weather :: _ => .ok (conditionImageName weather.id)

/-! ### WeatherLoader.swift -/

/- Interpolation of floating-point numbers into strings. -/
structure Interpolation where
  float : ℚ → Text
  double : ℚ → Text

inductive FetchWeatherRequestType where
  | cityName (city : String)
  | geoLocation (lat long : ℚ)
  deriving DecidableEq

namespace WeatherLoader

def appId : String := "0986e1cead171e460c1cb63e7ea4286f"
def scheme : String := "https"
def host : String := "api.openweathermap.org"
def path : String := "/data/2.5/weather"

def urlQueryItems (text : Interpolation) : FetchWeatherRequestType → List (String × String)
  | .cityName city => [("q", city), ("units", "metric"), ("appid", appId)]
  | .geoLocation latitude longitude =>
    [("lat", String.ofList (text.double latitude)), ("lon", String.ofList (text.double longitude)),
      ("units", "metric"), ("appid", appId)]

def getUrl (queryItems : List (String × String)) : Except Trap URLComponents :=
  let urlComponents : URLComponents :=
    { scheme := scheme, host := host, path := path, queryItems := queryItems }
  match urlComponents.url with
  | some url => .ok url
  | none => .error .couldNotCreateURL

theorem getUrl_ok (queryItems : List (String × String)) :
    getUrl queryItems =
      .ok { scheme := scheme, host := host, path := path, queryItems := queryItems } := by
  let components : URLComponents :=
    { scheme := scheme, host := host, path := path, queryItems := queryItems }
  have hpath : components.path.toList = '/' :: "data/2.5/weather".toList := by
    simp [components, path]
  have hurl : components.url = some components := url_absolute hpath
  unfold getUrl
  simp only [components] at hurl
  simp only [hurl]

end WeatherLoader

/-! ### WeatherViewController.swift -/

/- A resumed task; it asks the address of its fetch. -/
structure DataTask (text : Interpolation) where
  number : ℕ
  fetchType : FetchWeatherRequestType
  url : URLComponents
  asked : WeatherLoader.getUrl (WeatherLoader.urlQueryItems text fetchType) = .ok url
  deriving DecidableEq

structure WeatherViewController (text : Interpolation) where
  cityLabel : String
  temperatureLabel : Text
  conditionImage : String
  intents : ℕ
  locationRequests : List ℕ
  tasks : List (DataTask text)
  mainQueue : List (ℕ × CityWeather)
  deriving DecidableEq

structure CLLocation where
  latitude : ℚ
  longitude : ℚ
  deriving DecidableEq

/- The search events carry what the text field holds; an empty text asks for nothing.
A fix answers the location request of one intent; the location manager may let it
stand for earlier requests as well, which then get no fix of their own. -/
inductive Event (Data : Type) where
  | viewDidAppear
  | getLocationButtonPressed
  | searchButtonPressed (text : String)
  | textFieldShouldReturn (text : String)
  | didUpdateLocations (number : ℕ) (merged : List ℕ) (locations : List CLLocation)
  | didFailWithError (number : ℕ)
  | answer (number : ℕ) (response : Response Data)
  | runMain (number : ℕ)
  deriving DecidableEq

variable {Data : Type} {text : Interpolation} (decode : Data → Except String CityWeather)

/- The texts and the image of Main.storyboard. -/
def viewDidLoad : WeatherViewController text :=
  { cityLabel := "London", temperatureLabel := "21".toList, conditionImage := "cloud.rain",
    intents := 0, locationRequests := [], tasks := [], mainQueue := [] }

def requestLocation (s : WeatherViewController text) : WeatherViewController text :=
  { s with intents := s.intents + 1, locationRequests := s.locationRequests ++ [s.intents] }

def fetchWeather (number : ℕ) (fetchType : FetchWeatherRequestType)
    (s : WeatherViewController text) : Except AppTrap (WeatherViewController text) :=
  match h : WeatherLoader.getUrl (WeatherLoader.urlQueryItems text fetchType) with
  | .error t => .error (.network t)
  | .ok url =>
    .ok { s with
          tasks := s.tasks ++ [{ number := number, fetchType := fetchType, url := url, asked := h }] }

/- The address can be built, so every fetch becomes a task. -/
theorem fetchWeather_eq (number : ℕ) (fetchType : FetchWeatherRequestType)
    (s : WeatherViewController text) :
    ∃ task : DataTask text, task.number = number ∧ task.fetchType = fetchType ∧
      fetchWeather number fetchType s = .ok { s with tasks := s.tasks ++ [task] } := by
  unfold fetchWeather
  split
  next t ht =>
    rw [WeatherLoader.getUrl_ok] at ht
    cases ht
  next url hurl => exact ⟨_, rfl, rfl, rfl⟩

def search (city : String) (s : WeatherViewController text) :
    Except AppTrap (WeatherViewController text) :=
  if city = "" then .ok s
  else fetchWeather s.intents (.cityName city) { s with intents := s.intents + 1 }

def viewDidAppear : WeatherViewController text → WeatherViewController text := requestLocation

def getLocationButtonPressed : WeatherViewController text → WeatherViewController text :=
  requestLocation

def searchButtonPressed (city : String) :
    WeatherViewController text → Except AppTrap (WeatherViewController text) := search city

def textFieldShouldReturn (city : String) :
    WeatherViewController text → Except AppTrap (WeatherViewController text) := search city

def didUpdateLocations (number : ℕ) (merged : List ℕ) (locations : List CLLocation)
    (s : WeatherViewController text) : Except AppTrap (WeatherViewController text) :=
  let s := { s with locationRequests := (s.locationRequests.erase number).diff merged }
  match locations.getLast? with
  | none => .ok s
  | some location => fetchWeather number (.geoLocation location.latitude location.longitude) s

/- The completion handler of `fetchWeather`; a failure is printed. -/
def completion (number : ℕ) : FetchResult CityWeather → List (ℕ × CityWeather)
  | .success cityWeather => [(number, cityWeather)]
  | .failure _ => []

/- The handler of the task, in `request`. -/
def request (number : ℕ) (response : Response Data) (s : WeatherViewController text) :
    Except AppTrap (WeatherViewController text) :=
  match handleResponse decode response with
  | (_, some t) => .error (.network t)
  | (results, none) =>
    .ok { s with mainQueue := s.mainQueue ++ results.flatMap (completion number) }

def updateUI (weather : CityWeather) (s : WeatherViewController text) :
    Except AppTrap (WeatherViewController text) :=
  match getWeatherConditionImageName weather with
  | .error t => .error t
  | .ok name =>
    .ok { s with
          cityLabel := weather.name
          temperatureLabel := text.float weather.main.temp
          conditionImage := name }

def handle (s : WeatherViewController text) :
    Event Data → Except AppTrap (WeatherViewController text)
  | .viewDidAppear => .ok (viewDidAppear s)
  | .getLocationButtonPressed => .ok (getLocationButtonPressed s)
  | .searchButtonPressed city => searchButtonPressed city s
  | .textFieldShouldReturn city => textFieldShouldReturn city s
  | .didUpdateLocations number merged locations => didUpdateLocations number merged locations s
  | .didFailWithError number => .ok { s with locationRequests := s.locationRequests.erase number }
  | .answer number response =>
    match pick DataTask.number number s.tasks with
    | none => .ok s
    | some (task, tasks) => request decode task.number response { s with tasks := tasks }
  | .runMain number =>
    match pick Prod.fst number s.mainQueue with
    | none => .ok s
    | some (update, mainQueue) => updateUI update.2 { s with mainQueue := mainQueue }

end PracticeApps.Clima
