import PracticeApps.Library.DecimalText
import PracticeApps.Library.EventMachine
import PracticeApps.Library.Race
import PracticeApps.Network.DataTask

/-!
# ByteCoin (ViewController.swift, CoinManager.swift)

A picked currency is fetched through a block of the global queue, a task of the
session and a block of the main queue. The fetches are numbered in the order
of the picks, so that a run can say whose turn it is; the code has no such number.
-/

namespace PracticeApps.ByteCoin
open DecimalText EventMachine Network Requests

/-! ### CoinManager.swift, ExchangeRateData.swift -/

structure ExchangeRateData where
  assetIdBase : String
  assetIdQuote : String
  rate : ℚ
  deriving DecidableEq

namespace CoinManager

def apiKey : String := "DF929C77-8F34-41F6-A799-C86F208CDAE2"
def scheme : String := "https"
def host : String := "rest.coinapi.io"
def path : String := "/v1/exchangerate/BTC"

def currencyArray : List String :=
  ["-", "AUD", "BRL", "CAD", "CNY", "EUR", "GBP", "HKD", "IDR", "ILS", "INR", "JPY", "MXN", "NOK",
    "NZD", "PLN", "RON", "RUB", "SEK", "SGD", "USD", "ZAR"]

def getUrl (currencyPath : String) (queryItems : List (String × String)) :
    Except Trap URLComponents :=
  let urlComponents : URLComponents :=
    { scheme := scheme, host := host, path := path ++ "/" ++ currencyPath, queryItems := queryItems }
  match urlComponents.url with
  | some url => .ok url
  | none => .error .couldNotCreateURL

/- The address that `getCoinPrice` asks. -/
def priceUrl (currency : String) : Except Trap URLComponents := getUrl currency [("apikey", apiKey)]

theorem priceUrl_ok (currency : String) :
    priceUrl currency =
      .ok { scheme := scheme, host := host, path := path ++ "/" ++ currency,
            queryItems := [("apikey", apiKey)] } := by
  let components : URLComponents :=
    { scheme := scheme, host := host, path := path ++ "/" ++ currency,
      queryItems := [("apikey", apiKey)] }
  have hpath : components.path.toList = '/' :: ("v1/exchangerate/BTC/" ++ currency).toList := by
    simp [components, path]
  have hurl : components.url = some components := url_absolute hpath
  unfold priceUrl getUrl
  simp only [components] at hurl
  simp only [hurl]

end CoinManager

/-! ### ViewController.swift -/

/- A block of the global queue, for a picked currency. -/
structure Fetch where
  number : ℕ
  currency : String
  deriving DecidableEq, Repr

/- A resumed task; it asks the address of its currency. -/
structure DataTask where
  number : ℕ
  currency : String
  url : URLComponents
  asked : CoinManager.priceUrl currency = .ok url
  deriving DecidableEq

/- The blocks that the completion handler leaves on the main queue. -/
inductive Block where
  | updateUI (data : ExchangeRateData)
  | showErrorAlert (message : String)
  deriving DecidableEq

structure ViewController where
  bitcoinLabel : Text
  currencyLabel : String
  alerts : List String
  fetches : ℕ
  globalQueue : List Fetch
  tasks : List DataTask
  mainQueue : List (ℕ × Block)
  deriving DecidableEq

inductive AppTrap where
  | indexOutOfRange (row count : ℕ)
  | network (trap : Trap)
  deriving DecidableEq, Repr

inductive Event (Data : Type) where
  | didSelectRow (row : ℕ)
  | runGlobal (number : ℕ)
  | answer (number : ℕ) (response : Response Data)
  | runMain (number : ℕ)
  deriving DecidableEq

variable {Data : Type} (decode : Data → Except String ExchangeRateData)

/- The label texts of Main.storyboard. -/
def viewDidLoad : ViewController :=
  { bitcoinLabel := "...".toList, currencyLabel := "USD", alerts := [], fetches := 0,
    globalQueue := [], tasks := [], mainQueue := [] }

def fetchExchangeRate (currency : String) (s : ViewController) : ViewController :=
  { s with
    fetches := s.fetches + 1
    globalQueue := s.globalQueue ++ [{ number := s.fetches, currency := currency }] }

def didSelectRow (row : ℕ) (s : ViewController) : Except AppTrap ViewController :=
  match CoinManager.currencyArray[row]? with
  | none => .error (.indexOutOfRange row CoinManager.currencyArray.length)
  | some selected => if selected = "-" then .ok s else .ok (fetchExchangeRate selected s)

def getCoinPrice (fetch : Fetch) (s : ViewController) : Except AppTrap ViewController :=
  match h : CoinManager.priceUrl fetch.currency with
  | .error t => .error (.network t)
  | .ok url =>
    .ok { s with
          tasks := s.tasks ++
            [{ number := fetch.number, currency := fetch.currency, url := url, asked := h }] }

/- The address can be built, so every fetch becomes a task. -/
theorem getCoinPrice_eq (fetch : Fetch) (s : ViewController) :
    ∃ task : DataTask, task.number = fetch.number ∧ task.currency = fetch.currency ∧
      getCoinPrice fetch s = .ok { s with tasks := s.tasks ++ [task] } := by
  unfold getCoinPrice
  split
  next t ht =>
    rw [CoinManager.priceUrl_ok] at ht
    cases ht
  next url hurl => exact ⟨_, rfl, rfl, rfl⟩

/- The completion handler of `fetchExchangeRate`. -/
def completion : FetchResult ExchangeRateData → Block
  | .success data => .updateUI data
  | .failure error => .showErrorAlert error.localizedDescription

/- The handler of the task, in `getExchangeRate`. -/
def getExchangeRate (number : ℕ) (response : Response Data) (s : ViewController) :
    Except AppTrap ViewController :=
  match handleResponse decode response with
  | (_, some t) => .error (.network t)
  | (results, none) =>
    .ok { s with mainQueue := s.mainQueue ++ results.map fun r => (number, completion r) }

def rateText (data : ExchangeRateData) : Text := formatFixed 2 data.rate

def Block.run (s : ViewController) : Block → ViewController
  | .updateUI data => { s with bitcoinLabel := rateText data, currencyLabel := data.assetIdQuote }
  | .showErrorAlert message => { s with alerts := s.alerts ++ [message] }

def handle (s : ViewController) : Event Data → Except AppTrap ViewController
  | .didSelectRow row => didSelectRow row s
  | .runGlobal number =>
    match pick Fetch.number number s.globalQueue with
    | none => .ok s
    | some (fetch, globalQueue) => getCoinPrice fetch { s with globalQueue := globalQueue }
  | .answer number response =>
    match pick DataTask.number number s.tasks with
    | none => .ok s
    | some (task, tasks) => getExchangeRate decode task.number response { s with tasks := tasks }
  | .runMain number =>
    match pick Prod.fst number s.mainQueue with
    | none => .ok s
    | some (block, mainQueue) => .ok (block.2.run { s with mainQueue := mainQueue })

end PracticeApps.ByteCoin
