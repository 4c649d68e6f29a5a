import PracticeApps.Library.EventMachine

/-!
# The quote table (QuoteTableViewController.swift)

`isPurchased` is the flag kept in the user defaults, so it outlives a launch;
the rest of the state belongs to the controller of the current launch, except
`finished`, the calls of `finishTransaction` on the payment queue so far.
-/

namespace PracticeApps.InspoQuotes
open EventMachine

/-- `SKPaymentTransactionState`; `unknown` is what `@unknown default` catches. -/
inductive TransactionState where
  | purchasing
  | purchased
  | failed
  | restored
  | deferred
  | unknown
  deriving DecidableEq, Repr

structure SKPaymentTransaction where
  identifier : ℕ
  transactionState : TransactionState
  deriving DecidableEq, Repr

structure App where
  isPurchased : Bool
  quotesToShow : List String
  rightBarButton : Bool
  finished : List SKPaymentTransaction

def freeQuotes : List String := [
  "Our greatest glory is not in never falling, but in rising every time we fall. — Confucius",
  "All our dreams can come true, if we have the courage to pursue them. – Walt Disney",
  "It does not matter how slowly you go as long as you do not stop. – Confucius",
  "Everything you’ve ever wanted is on the other side of fear. — George Addair",
  "Success is not final, failure is not fatal: it is the courage to continue that counts. – Winston Churchill",
  "Hardships often prepare ordinary people for an extraordinary destiny. – C.S. Lewis"]

def premiumQuotes : List String := [
  "Believe in yourself. You are braver than you think, more talented than you know, and capable of more than you imagine. ― Roy T. Bennett",
  "I learned that courage was not the absence of fear, but the triumph over it. The brave man is not he who does not feel afraid, but he who conquers that fear. – Nelson Mandela",
  "There is only one thing that makes a dream impossible to achieve: the fear of failure. ― Paulo Coelho",
  "It’s not whether you get knocked down. It’s whether you get up. – Vince Lombardi",
  "Your true success in life begins only when you make the commitment to become excellent at what you do. — Brian Tracy",
  "Believe in yourself, take on your challenges, dig deep within yourself to conquer fears. Never let anyone bring you down. You got to keep going. – Chantal Sutherland"]

/-- `showPremiumQuotes` (QuoteTableViewController.swift:163-167). -/
def showPremiumQuotes (s : App) : App :=
  { s with isPurchased := true, quotesToShow := s.quotesToShow ++ premiumQuotes }

def finishTransaction (s : App) (transaction : SKPaymentTransaction) : App :=
  { s with finished := s.finished ++ [transaction] }

/-- A new controller and its `viewDidLoad` (QuoteTableViewController.swift:43-55). -/
def viewDidLoad (s : App) : App :=
  let fresh := { s with quotesToShow := freeQuotes, rightBarButton := true }
  if fresh.isPurchased then showPremiumQuotes fresh else fresh

/- The `fatalError()` of `@unknown default`. -/
inductive Trap where
  | unknownTransactionState
  deriving DecidableEq, Repr

/- One round of the loop in `paymentQueue(_:updatedTransactions:)`. -/
def updateTransaction (s : App) (transaction : SKPaymentTransaction) : Except Trap App :=
  match transaction.transactionState with
  | .purchasing => .ok s
  | .purchased => .ok (finishTransaction (showPremiumQuotes s) transaction)
  | .failed => .ok (finishTransaction s transaction)
  | .restored =>
    .ok { finishTransaction (showPremiumQuotes s) transaction with rightBarButton := false }
  | .deferred => .ok s
  | .unknown => .error .unknownTransactionState

/-- `paymentQueue(_:updatedTransactions:)` (QuoteTableViewController.swift:130-161). -/
def paymentQueue (s : App) (transactions : List SKPaymentTransaction) : Except Trap App :=
  exec updateTransaction s transactions

inductive Event where
  | launch
  | updatedTransactions (transactions : List SKPaymentTransaction)

def handle (s : App) : Event → Except Trap App
  | .launch => .ok (viewDidLoad s)
  | .updatedTransactions transactions => paymentQueue s transactions

/- The first launch, with the flag as an earlier installation left it. -/
def firstLaunch (stored : Bool) : App := viewDidLoad ⟨stored, [], true, []⟩

/-- `tableView(_:numberOfRowsInSection:)` (QuoteTableViewController.swift:71-74). -/
def numberOfRows (s : App) : ℕ :=
  if s.isPurchased then s.quotesToShow.length else s.quotesToShow.length + 1

/-! ### What a batch does -/

def TransactionState.unlocks : TransactionState → Bool
  | .purchased | .restored => true
  | _ => false

def TransactionState.finishes : TransactionState → Bool
  | .purchased | .failed | .restored => true
  | _ => false

def unlockCount (transactions : List SKPaymentTransaction) : ℕ :=
  transactions.countP fun t => t.transactionState.unlocks

def Known (transactions : List SKPaymentTransaction) : Prop :=
  ∀ t ∈ transactions, t.transactionState ≠ .unknown

/- One transaction: the quotes are appended once more if it unlocks, the flag is
set, and the transaction is finished if it is in a final state. -/
theorem updateTransaction_known (s : App) (t : SKPaymentTransaction)
    (ht : t.transactionState ≠ .unknown) :
    ∃ r, updateTransaction s t = .ok r ∧
      r.isPurchased = (s.isPurchased || t.transactionState.unlocks) ∧
      r.quotesToShow =
        s.quotesToShow ++ (if t.transactionState.unlocks then premiumQuotes else []) ∧
      r.finished = s.finished ++ (if t.transactionState.finishes then [t] else []) := by
  cases hstate : t.transactionState with
  | purchasing => exact ⟨s, by simp [updateTransaction, hstate, TransactionState.unlocks, TransactionState.finishes]⟩
  | deferred => exact ⟨s, by simp [updateTransaction, hstate, TransactionState.unlocks, TransactionState.finishes]⟩
  | unknown => exact absurd hstate ht
  | purchased | failed | restored =>
    simp [updateTransaction, hstate, finishTransaction, showPremiumQuotes,
      TransactionState.unlocks, TransactionState.finishes]

theorem paymentQueue_known (s : App) (transactions : List SKPaymentTransaction)
    (h : Known transactions) :
    ∃ r, paymentQueue s transactions = .ok r ∧
      r.isPurchased = (s.isPurchased || decide (0 < unlockCount transactions)) ∧
      r.quotesToShow = s.quotesToShow ++
        (List.replicate (unlockCount transactions) premiumQuotes).flatten ∧
      r.finished = s.finished ++ transactions.filter fun t => t.transactionState.finishes := by
  induction transactions generalizing s with
  | nil => exact ⟨s, by simp [paymentQueue, unlockCount]⟩
  | cons t ts ih =>
    obtain ⟨q, hq, hq1, hq2, hq3⟩ := updateTransaction_known s t (h t (by simp))
    obtain ⟨r, hr, hr1, hr2, hr3⟩ := ih q (fun u hu => h u (by simp [hu]))
    refine ⟨r, ?_, ?_, ?_, ?_⟩
    · show exec updateTransaction s (t :: ts) = .ok r
      rw [exec_cons_ok ts hq]
      exact hr
    · rw [hr1, hq1]
      cases hu : t.transactionState.unlocks <;> simp [unlockCount, hu]
    · rw [hr2, hq2]
      cases hu : t.transactionState.unlocks <;>
        simp [unlockCount, hu, List.replicate_succ, List.append_assoc]
    · rw [hr3, hq3]
      cases hf : t.transactionState.finishes <;> simp [hf]

end PracticeApps.InspoQuotes
