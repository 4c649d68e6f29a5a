import PracticeApps.ByteCoin.ViewController
import PracticeApps.Network.Session

/-!
# The fetches of the screen (CoinManager.swift)

The screen over the session: a block of the global queue is a fetch of the coin
manager, and what the completion handler is called with ends on the main queue.
-/

namespace PracticeApps.ByteCoin
open EventMachine Network Requests

variable {Data : Type} (decode : Data → Except String ExchangeRateData)

/- `getCoinPrice` and `getExchangeRate`. -/
def coinManager : Loader String Data ExchangeRateData where
  url := CoinManager.priceUrl
  url_ok currency := ⟨_, CoinManager.priceUrl_ok currency⟩
  decode := decode

def sent (s : ViewController) : Event Data → List (NetworkEvent String Data)
  | .runGlobal number =>
    match pick Fetch.number number s.globalQueue with
    | none => []
    | some (fetch, _) => [.fetch fetch.number fetch.currency]
  | .answer number response => [.answer number response]
  | .didSelectRow _ | .runMain _ => []

theorem answer_of_sent {s : ViewController} {e : Event Data} {number : ℕ}
    {response : Response Data} (h : NetworkEvent.answer number response ∈ sent s e) :
    e = .answer number response := by
  cases e with
  | runGlobal m =>
    unfold sent at h
    dsimp only at h
    split at h <;> simp at h
  | answer m other =>
    simp only [sent, List.mem_singleton, NetworkEvent.answer.injEq] at h
    rw [h.1, h.2]
  | didSelectRow row => cases h
  | runMain m => cases h

def networkTrap : AppTrap → Option Trap
  | .network t => some t
  | .indexOutOfRange _ _ => none

def DataTask.task (t : DataTask) : Task := ⟨t.number, t.url⟩

/- The tasks are those of the session, and every block on the main queue was left by
a call of the completion handler. -/
structure OverSession (s : ViewController) (session : Session ExchangeRateData) : Prop where
  tasks : session.tasks = s.tasks.map DataTask.task
  mainQueue : s.mainQueue.Sublist (session.calls.map fun call => (call.1, completion call.2))

theorem overSession_start : OverSession viewDidLoad Session.start := ⟨rfl, List.Sublist.refl _⟩

variable {decode}

theorem didSelectRow_over {s : ViewController} {session : Session ExchangeRateData}
    (h : OverSession s session) (row : ℕ) :
    Over OverSession networkTrap (didSelectRow row s) (.ok session) := by
  unfold didSelectRow
  split
  · rfl
  · split
    · exact h
    · exact ⟨h.tasks, h.mainQueue⟩

theorem runGlobal_over {s : ViewController} {session : Session ExchangeRateData}
    (h : OverSession s session) (number : ℕ) :
    Over OverSession networkTrap (handle decode s (.runGlobal number))
      (exec (coinManager decode).step session (sent s (.runGlobal number : Event Data))) := by
  cases hpick : pick Fetch.number number s.globalQueue with
  | none =>
    simp only [handle, sent, hpick, exec_nil]
    exact h
  | some picked =>
    obtain ⟨fetch, globalQueue⟩ := picked
    obtain ⟨task, hnumber, hcurrency, hprice⟩ :=
      getCoinPrice_eq fetch { s with globalQueue := globalQueue }
    have hurl : (coinManager decode).url fetch.currency = .ok task.url := by
      rw [← hcurrency]
      exact task.asked
    simp only [handle, sent, hpick, hprice, exec_singleton, Loader.step, Loader.fetch, hurl]
    refine ⟨?_, h.mainQueue⟩
    rw [h.tasks, List.map_append, List.map_singleton, ← hnumber]
    rfl

theorem answer_over {s : ViewController} {session : Session ExchangeRateData}
    (h : OverSession s session) (number : ℕ) (response : Response Data) :
    Over OverSession networkTrap (handle decode s (.answer number response))
      (exec (coinManager decode).step session (sent s (.answer number response : Event Data))) := by
  cases htask : pick DataTask.number number s.tasks with
  | none =>
    have hstep := answer_unknown (coinManager decode) DataTask.task h.tasks response htask
    simp only [handle, sent, htask, exec_singleton, hstep]
    exact h
  | some picked =>
    obtain ⟨task, tasks⟩ := picked
    have hstep := answer_known (coinManager decode) DataTask.task h.tasks response htask
    have hdecode : (coinManager decode).decode = decode := rfl
    simp only [handle, sent, htask, exec_singleton, hstep, getExchangeRate, Loader.answer, hdecode]
    obtain ⟨results, trap⟩ := handleResponse decode response
    cases trap with
    | some t => rfl
    | none =>
      refine ⟨rfl, ?_⟩
      rw [List.map_append, List.map_map]
      exact h.mainQueue.append (List.Sublist.refl _)

theorem runMain_over {s : ViewController} {session : Session ExchangeRateData}
    (h : OverSession s session) (number : ℕ) :
    Over OverSession networkTrap (handle decode s (.runMain number)) (.ok session) := by
  cases hpick : pick Prod.fst number s.mainQueue with
  | none =>
    simp only [handle, hpick]
    exact h
  | some picked =>
    obtain ⟨⟨m, block⟩, mainQueue⟩ := picked
    have hrest := (pick_sublist hpick).trans h.mainQueue
    simp only [handle, hpick]
    cases block with
    | updateUI data => exact ⟨h.tasks, hrest⟩
    | showErrorAlert message => exact ⟨h.tasks, hrest⟩

theorem handle_over {s : ViewController} {session : Session ExchangeRateData}
    (h : OverSession s session) (e : Event Data) :
    Over OverSession networkTrap (handle decode s e)
      (exec (coinManager decode).step session (sent s e)) := by
  cases e with
  | didSelectRow row => exact didSelectRow_over h row
  | runGlobal number => exact runGlobal_over h number
  | answer number response => exact answer_over h number response
  | runMain number => exact runMain_over h number

/-- A run of the screen is a run of the session, on the fetches and answers of the screen. -/
theorem run_over (decode : Data → Except String ExchangeRateData) (events : List (Event Data)) :
    Over OverSession networkTrap (exec (handle decode) viewDidLoad events)
      (exec (coinManager decode).step Session.start
        (relayed sent (handle decode) viewDidLoad events)) :=
  exec_over (fun _ _ e h => handle_over h e) overSession_start events

/-- The network stops the screen only by an answer without a body. -/
theorem network_trap {events : List (Event Data)} {t : Trap}
    (ht : exec (handle decode) viewDidLoad events = .error (.network t)) :
    t = .unwrappedNil ∧ ∃ number response, Event.answer number response ∈ events ∧
      response.data = none := by
  have hover := run_over decode events
  rw [ht] at hover
  obtain ⟨hnil, number, response, hr, hdata⟩ := trap_inv (over_error hover rfl)
  obtain ⟨e, he, s, hsent⟩ := mem_relayed hr
  exact ⟨hnil, number, response, answer_of_sent hsent ▸ he, hdata⟩

end PracticeApps.ByteCoin
