import PracticeApps.ByteCoin.Traffic
import PracticeApps.ByteCoin.Labels
import PracticeApps.Clima.LatestIntent
import PracticeApps.Clima.Traffic

/-!
# One completion for each fetch (WeatherLoader.swift, CoinManager.swift)

Both handlers report a transport error and go on to unwrap and decode the body.
-/

namespace PracticeApps.Network
open EventMachine
open ByteCoin (ExchangeRateData coinManager usdBody)
open Clima (CityWeather FetchWeatherRequestType Interpolation weatherLoader oneDecimal londonBody)

variable {Data : Type}

/-- In a run of either loader the completion handler is called once for each fetch that is
answered, with the transport error or else with what the body decodes to, and no missing
body is unwrapped, exactly when no answer carries a transport error. -/
theorem one_completion_iff (text : Interpolation) (decodeWeather : Data → Except String CityWeather)
    (decodeRate : Data → Except String ExchangeRateData)
    (weather : List (NetworkEvent FetchWeatherRequestType Data))
    (rates : List (NetworkEvent String Data))
    (hweather : AtEach Delivered (weatherLoader text decodeWeather).step Session.start weather)
    (hrates : AtEach Delivered (coinManager decodeRate).step Session.start rates) :
    (CompletesOnce (weatherLoader text decodeWeather) weather ↔ NoTransportError weather) ∧
      (CompletesOnce (coinManager decodeRate) rates ↔ NoTransportError rates) :=
  ⟨completesOnce_iff hweather, completesOnce_iff hrates⟩

/-! ### One fetch of each kind -/

/- London is fetched and answered. -/
def london (response : Response String) : List (NetworkEvent FetchWeatherRequestType String) :=
  [.fetch 0 (.cityName "London"), .answer 0 response]

/- USD is fetched and answered. -/
def usd (response : Response String) : List (NetworkEvent String String) :=
  [.fetch 0 "USD", .answer 0 response]

/- A body that decodes and one that does not, both without an error. -/
theorem answered_in_full :
    CompletesOnce (weatherLoader oneDecimal Clima.decodeBody) (london ⟨some londonBody, none⟩) ∧
      CompletesOnce (coinManager ByteCoin.decodeBody) (usd ⟨some "", none⟩) := by
  have hiff := one_completion_iff oneDecimal Clima.decodeBody ByteCoin.decodeBody
    (london ⟨some londonBody, none⟩) (usd ⟨some "", none⟩) (by decide +kernel) (by decide +kernel)
  refine ⟨hiff.1.mpr ?_, hiff.2.mpr ?_⟩
  · simp [NoTransportError, london]
  · simp [NoTransportError, usd]

def lost : Response String := ⟨some londonBody, some "The network connection was lost."⟩

def offline : Response String := ⟨none, some "The Internet connection appears to be offline."⟩

/- The error is reported, and the body that came with it is reported as well. -/
theorem lost_reported_twice {s : Session CityWeather}
    (hs : exec (weatherLoader oneDecimal Clima.decodeBody).step Session.start (london lost) = .ok s) :
    (s.callsOf 0).length = 2 := by
  have htwice : (exec (weatherLoader oneDecimal Clima.decodeBody).step Session.start
      (london lost)).map (fun s => (s.callsOf 0).length) = .ok 2 := by decide +kernel
  rw [hs] at htwice
  exact Except.ok.inj htwice

/- The error is reported, and then the body is unwrapped that is not there. -/
theorem offline_trap :
    exec (coinManager ByteCoin.decodeBody).step Session.start (usd offline) =
      .error .unwrappedNil := by
  decide +kernel

/- Two calls for one fetch of the weather, and a trap for one of a rate. -/
theorem lost_and_offline :
    ¬ ((∀ weather : List (NetworkEvent FetchWeatherRequestType String),
        AtEach Delivered (weatherLoader oneDecimal Clima.decodeBody).step Session.start weather →
          CompletesOnce (weatherLoader oneDecimal Clima.decodeBody) weather) ∨
      ∀ rates : List (NetworkEvent String String),
        AtEach Delivered (coinManager ByteCoin.decodeBody).step Session.start rates →
          CompletesOnce (coinManager ByteCoin.decodeBody) rates) := by
  rintro (hweather | hrates)
  · obtain ⟨s, hs, hone⟩ := hweather (london lost) (by decide +kernel)
    obtain ⟨result, _, hcalls⟩ := hone.answered 0 lost (by simp [london])
    have htwice := lost_reported_twice hs
    rw [hcalls] at htwice
    cases htwice
  · obtain ⟨s, hs, _⟩ := hrates (usd offline) (by decide +kernel)
    rw [offline_trap] at hs
    cases hs

end PracticeApps.Network
