import PracticeApps.ByteCoin.Timeline

/-!
# The price shown and the currency picked

Nothing orders the answers of overlapping fetches: each is shown when its block
runs on the main queue, and the labels keep the one displayed last.
-/

namespace PracticeApps.ByteCoin
open DecimalText EventMachine Network Requests

variable {Data : Type}

/-- If every request succeeds, then once nothing is in flight the labels show the rate and
the code of the currency picked last exactly when the update that ran last is the one of
that pick, or shows the same texts. -/
theorem labels_show_latest_iff (decode : Data → Except String ExchangeRateData)
    (events : List (Event Data)) (s : ViewController) (latest : ℕ) (currency : String)
    (hrun : exec (handle decode) viewDidLoad events = .ok s)
    (hsucceeds : AtEach (Succeeds decode) (handle decode) viewDidLoad events)
    (hquiet : Quiet s) (hlatest : (pickedCurrencies events).length = latest + 1)
    (hcurrency : (pickedCurrencies events).getLast? = some currency) :
    (answerTo latest (timeline decode events)).map rateText = some s.bitcoinLabel ∧
        s.currencyLabel = currency ↔
      ∃ n, lastDisplayed (timeline decode events) = some n ∧
        (answerTo n (timeline decode events)).map labelTexts =
          (answerTo latest (timeline decode events)).map labelTexts := by
  obtain ⟨race, hrace, href⟩ := run_refines hsucceeds hrun
  have hpicks := run_followsPicks hsucceeds hrun
  have hissued : race.issued = latest + 1 := by
    rw [run_issued hrace, timeline_issued, hlatest]
  have hrest : race.Quiet := refines_quiet href hquiet
  have hkept := timeline_kept decode events latest
  obtain ⟨a, ha⟩ := quiet_latest_answered hrace hrest hissued hkept
  have hcode : a.assetIdQuote = currency := by
    have hpicked := hpicks.answered latest a ((run_answerTo hrace).mp ha)
    unfold PickedAs at hpicked
    rw [List.getLast?_eq_getElem?, hlatest, Nat.add_sub_cancel, hpicked] at hcurrency
    cases hcurrency
    rfl
  obtain ⟨shown, hshown, hiff⟩ := quiet_shows_latest_iff labelTexts hrace hrest hissued hkept
  have hlabels : labels s = labelTexts shown := by
    rw [href.labels, hshown]
    rfl
  rw [← hiff, ha, ← hlabels, ← hcode]
  unfold labels labelTexts
  simp only [Option.map_some, Option.some.injEq, Prod.mk.injEq]
  rw [eq_comm (a := s.currencyLabel)]

/-! ### Two picks in flight -/

def audBody : String :=
  "\x7b\"asset_id_base\":\"BTC\",\"asset_id_quote\":\"AUD\",\"rate\":15210.5\x7d"

def usdBody : String :=
  "\x7b\"asset_id_base\":\"BTC\",\"asset_id_quote\":\"USD\",\"rate\":10833.25\x7d"

def decodeBody (body : String) : Except String ExchangeRateData :=
  if body = audBody then .ok ⟨"BTC", "AUD", 152105 / 10⟩
  else if body = usdBody then .ok ⟨"BTC", "USD", 1083325 / 100⟩
  else .error "The data is not in the correct format."

/- AUD and then USD are picked, and answered in the given order. -/
def audThenUsd (first second : ℕ × String) : List (Event String) :=
  [.didSelectRow 1, .didSelectRow 20, .runGlobal 0, .runGlobal 1,
    .answer first.1 ⟨some first.2, none⟩, .answer second.1 ⟨some second.2, none⟩,
    .runMain first.1, .runMain second.1]

def atRest (bitcoinLabel currencyLabel : String) : ViewController :=
  { viewDidLoad with
    bitcoinLabel := bitcoinLabel.toList, currencyLabel := currencyLabel, fetches := 2 }

theorem usd_answered_last :
    (answerTo 1 (timeline decodeBody (audThenUsd (0, audBody) (1, usdBody)))).map rateText =
        some "10833.25".toList ∧ (atRest "10833.25" "USD").currencyLabel = "USD" :=
  (labels_show_latest_iff decodeBody (audThenUsd (0, audBody) (1, usdBody))
    (atRest "10833.25" "USD") 1 "USD" (by decide +kernel) (by decide +kernel)
    ⟨rfl, rfl, rfl⟩ (by decide +kernel) (by decide +kernel)).mpr ⟨1, rfl, rfl⟩

/- The answer for AUD overtakes: USD is picked last and AUD stays on the screen. -/
theorem usd_picked_aud_shown :
    ¬ ∀ (events : List (Event String)) (s : ViewController) (latest : ℕ) (currency : String),
      exec (handle decodeBody) viewDidLoad events = .ok s →
      AtEach (Succeeds decodeBody) (handle decodeBody) viewDidLoad events →
      Quiet s → (pickedCurrencies events).length = latest + 1 →
      (pickedCurrencies events).getLast? = some currency →
      (answerTo latest (timeline decodeBody events)).map rateText = some s.bitcoinLabel ∧
        s.currencyLabel = currency := by
  intro h
  have hlabels := h (audThenUsd (1, usdBody) (0, audBody)) (atRest "15210.50" "AUD") 1 "USD"
    (by decide +kernel) (by decide +kernel) ⟨rfl, rfl, rfl⟩ (by decide +kernel) (by decide +kernel)
  exact absurd hlabels.2 (by decide)

end PracticeApps.ByteCoin
