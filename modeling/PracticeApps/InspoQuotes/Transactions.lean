import PracticeApps.InspoQuotes.Unlock

/-!
# The payment queue over a run

What is finished and what the flag says, at any point of a run: between two
batches, or inside a batch once some of its transactions are handled.
-/

namespace PracticeApps.InspoQuotes
open EventMachine

def Event.transactions : Event → List SKPaymentTransaction
  | .launch => []
  | .updatedTransactions transactions => transactions

/-- The transactions of a run of events, in the order the loop meets them. -/
def processed (events : List Event) : List SKPaymentTransaction := events.flatMap Event.transactions

def finalStates : List TransactionState := [.purchased, .failed, .restored]
def unlockingStates : List TransactionState := [.purchased, .restored]

/-- `r` is `s` after exactly the transactions of `ts`: the ones in a final state
were finished, each once and in order, and the flag was set by the unlocking ones. -/
def SettledBy (s : App) (ts : List SKPaymentTransaction) (r : App) : Prop :=
  r.finished = s.finished ++ ts.filter (fun t => t.transactionState ∈ finalStates) ∧
    (r.isPurchased = true ↔
      s.isPurchased = true ∨ ∃ t ∈ ts, t.transactionState ∈ unlockingStates)

theorem settledBy_nil (s : App) : SettledBy s [] s := by simp [SettledBy]

theorem SettledBy.append {s q r : App} {ts us : List SKPaymentTransaction}
    (h : SettledBy s ts q) (h' : SettledBy q us r) : SettledBy s (ts ++ us) r := by
  obtain ⟨hfinished, hflag⟩ := h
  obtain ⟨hfinished', hflag'⟩ := h'
  refine ⟨?_, ?_⟩
  · rw [hfinished', hfinished, List.filter_append, List.append_assoc]
  · rw [hflag', hflag]
    simp only [List.mem_append, or_and_right, exists_or, or_assoc]

theorem viewDidLoad_settled (s : App) : SettledBy s [] (viewDidLoad s) := by
  unfold viewDidLoad
  dsimp only
  split
  next h => simpa [SettledBy, showPremiumQuotes] using h
  · simp [SettledBy]

theorem updateTransaction_settled (s : App) (t : SKPaymentTransaction)
    (ht : t.transactionState ≠ .unknown) :
    ∃ r, updateTransaction s t = .ok r ∧ SettledBy s [t] r := by
  obtain ⟨r, hr, hflag, _, hfinished⟩ := updateTransaction_known s t ht
  refine ⟨r, hr, ?_, ?_⟩
  · rw [hfinished]
    cases h : t.transactionState <;> simp [h, TransactionState.finishes, finalStates]
  · rw [hflag]
    cases h : t.transactionState <;> simp [h, TransactionState.unlocks, unlockingStates]

theorem updateTransactions_settled (s : App) (ts : List SKPaymentTransaction) (h : Known ts) :
    ∃ r, exec updateTransaction s ts = .ok r ∧ SettledBy s ts r := by
  induction ts generalizing s with
  | nil => exact ⟨s, rfl, settledBy_nil s⟩
  | cons t ts ih =>
    obtain ⟨q, hq, hsettled⟩ := updateTransaction_settled s t (h t (by simp))
    obtain ⟨r, hr, hsettled'⟩ := ih q (fun u hu => h u (by simp [hu]))
    exact ⟨r, by rw [exec_cons_ok ts hq, hr], hsettled.append hsettled'⟩

theorem handle_settled (s : App) (e : Event) (he : KnownEvent e) :
    ∃ r, handle s e = .ok r ∧ SettledBy s e.transactions r := by
  cases e with
  | launch => exact ⟨viewDidLoad s, rfl, viewDidLoad_settled s⟩
  | updatedTransactions ts => exact updateTransactions_settled s ts he

theorem run_settled (s : App) (events : List Event) (h : ∀ e ∈ events, KnownEvent e) :
    ∃ r, exec handle s events = .ok r ∧ SettledBy s (processed events) r := by
  induction events generalizing s with
  | nil => exact ⟨s, rfl, settledBy_nil s⟩
  | cons e es ih =>
    obtain ⟨q, hq, hsettled⟩ := handle_settled s e (h e (by simp))
    obtain ⟨r, hr, hsettled'⟩ := ih q (fun u hu => h u (by simp [hu]))
    exact ⟨r, by rw [exec_cons_ok es hq, hr], hsettled.append hsettled'⟩

/-- After any batches and then the first transactions `handled` of a further one,
from any stored flag, the finished transactions and the flag are those of exactly
the transactions met so far; a failed or deferred one leaves the flag as it is. -/
theorem transactions_settled (s : App) (events : List Event)
    (handled rest : List SKPaymentTransaction) (hknown : ∀ e ∈ events, KnownEvent e)
    (hbatch : Known (handled ++ rest)) :
    (∃ q r, exec handle s events = .ok q ∧ exec updateTransaction q handled = .ok r ∧
      paymentQueue q (handled ++ rest) = exec updateTransaction r rest ∧
      SettledBy s (processed events ++ handled) r) ∧
    ∀ t : SKPaymentTransaction, t.transactionState = .failed ∨ t.transactionState = .deferred →
      ∀ q, ∃ r, updateTransaction q t = .ok r ∧ r.isPurchased = q.isPurchased := by
  refine ⟨?_, fun t ht q => ?_⟩
  · have hhandled : Known handled := fun t ht => hbatch t (List.mem_append_left rest ht)
    obtain ⟨q, hq, hsettled⟩ := run_settled s events hknown
    obtain ⟨r, hr, hsettled'⟩ := updateTransactions_settled q handled hhandled
    exact ⟨q, r, hq, hr, exec_append_ok rest hr, hsettled.append hsettled'⟩
  · have hstate : t.transactionState ≠ .unknown := by
      rcases ht with ht | ht <;> simp [ht]
    obtain ⟨r, hr, hflag, _⟩ := updateTransaction_known q t hstate
    refine ⟨r, hr, ?_⟩
    rcases ht with ht | ht <;> simp [hflag, ht, TransactionState.unlocks]

/- A failed purchase, the next launch, and then a batch cut after its first transaction. -/
theorem failed_then_restored_settled :
    (∃ q r, exec handle (firstLaunch false)
        [.updatedTransactions [⟨1, .purchasing⟩, ⟨2, .failed⟩], .launch] = .ok q ∧
      exec updateTransaction q [⟨3, .restored⟩] = .ok r ∧
      paymentQueue q [⟨3, .restored⟩, ⟨4, .deferred⟩] =
        exec updateTransaction r [⟨4, .deferred⟩] ∧
      SettledBy (firstLaunch false) [⟨1, .purchasing⟩, ⟨2, .failed⟩, ⟨3, .restored⟩] r) ∧
    ∀ t : SKPaymentTransaction, t.transactionState = .failed ∨ t.transactionState = .deferred →
      ∀ q, ∃ r, updateTransaction q t = .ok r ∧ r.isPurchased = q.isPurchased :=
  transactions_settled (firstLaunch false) _ [⟨3, .restored⟩] [⟨4, .deferred⟩]
    (by simp [KnownEvent, Known]) (by simp [Known])

end PracticeApps.InspoQuotes
