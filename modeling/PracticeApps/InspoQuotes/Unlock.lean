import PracticeApps.InspoQuotes.QuoteTableViewController

/-!
# Unlocking the premium quotes

`showPremiumQuotes` appends the premium quotes every time it is called, so the
list is right as long as it is called once within a launch: at the launch when
the flag is stored, or by one purchased or restored transaction otherwise.
-/

namespace PracticeApps.InspoQuotes
open EventMachine

/-- The free quotes, then the premium quotes once if they are unlocked. -/
def ShowsExactly (s : App) : Prop :=
  s.quotesToShow = freeQuotes ++ (if s.isPurchased then premiumQuotes else [])

def ShowsExactlyAfter : Except Trap App → Prop
  | .ok s => ShowsExactly s
  | .error _ => False

/-- A batch unlocks at most once, and not at all if premium is unlocked already. -/
def UnlocksOnce (s : App) : Event → Prop
  | .launch => True
  | .updatedTransactions transactions =>
    unlockCount transactions + (if s.isPurchased then 1 else 0) ≤ 1

instance (s : App) (e : Event) : Decidable (UnlocksOnce s e) := by
  unfold UnlocksOnce
  cases e <;> infer_instance

def KnownEvent : Event → Prop
  | .launch => True
  | .updatedTransactions transactions => Known transactions

theorem viewDidLoad_shows (s : App) : ShowsExactly (viewDidLoad s) := by
  unfold ShowsExactly viewDidLoad
  dsimp only
  split
  · rfl
  · simp

/- Appending copies: only one copy, or none, is the list that should be shown. -/
theorem shown_copies_iff (copies : ℕ) (stored : Bool) :
    freeQuotes ++ (if stored then premiumQuotes else []) ++
        (List.replicate copies premiumQuotes).flatten =
      freeQuotes ++ (if (stored || decide (0 < copies)) then premiumQuotes else []) ↔
    copies + (if stored then 1 else 0) ≤ 1 := by
  have hlength : ((List.replicate copies premiumQuotes).flatten).length = copies * 6 := by
    rw [List.length_flatten, List.map_replicate, List.sum_replicate_nat]
    rfl
  have hsix : premiumQuotes.length = 6 := rfl
  constructor
  · intro h
    have hcount := congrArg List.length h
    rw [List.length_append, List.length_append, List.length_append, hlength] at hcount
    cases stored with
    | true =>
      simp only [ite_true, Bool.true_or] at hcount ⊢
      omega
    | false =>
      simp only [Bool.false_eq_true, ite_false, List.length_nil, Bool.false_or] at hcount ⊢
      split at hcount
      · omega
      next hpos =>
        have hzero : ¬ 0 < copies := by simpa using hpos
        omega
  · intro h
    cases stored with
    | true =>
      have hzero : copies = 0 := by simpa using h
      simp [hzero]
    | false =>
      have hcases : copies = 0 ∨ copies = 1 := by
        have : copies ≤ 1 := by simpa using h
        omega
      rcases hcases with rfl | rfl <;> simp

theorem handle_shows_iff (s : App) (hs : ShowsExactly s) (e : Event) (he : KnownEvent e) :
    ShowsExactlyAfter (handle s e) ↔ UnlocksOnce s e := by
  cases e with
  | launch => exact iff_of_true (viewDidLoad_shows s) trivial
  | updatedTransactions transactions =>
    obtain ⟨r, hr, hflag, hquotes, _⟩ := paymentQueue_known s transactions he
    show ShowsExactlyAfter (paymentQueue s transactions) ↔ _
    rw [hr]
    show r.quotesToShow = freeQuotes ++ (if r.isPurchased then premiumQuotes else []) ↔ _
    rw [hquotes, hflag, hs]
    exact shown_copies_iff _ _

/-- Over launches and batches of known transactions, the list is exact in every
state exactly when no batch unlocks twice or unlocks what is unlocked already. -/
theorem idempotent_unlock_iff (stored : Bool) (events : List Event)
    (hknown : ∀ e ∈ events, KnownEvent e) :
    Accepted ShowsExactlyAfter handle (firstLaunch stored) events ↔
      AtEach UnlocksOnce handle (firstLaunch stored) events := by
  refine accepted_iff_atEach (E := fun _ e => KnownEvent e) (I := fun _ => True) trivial
    (viewDidLoad_shows _) ?_ (fun _ _ _ _ _ _ _ _ => trivial)
    (atEach_of_mem (fun e he _ => hknown e he) _)
  intro s e _ hs he
  exact handle_shows_iff s hs e he

/- A purchase, then the next launch. -/
theorem unlock_purchase_relaunch :
    Accepted ShowsExactlyAfter handle (firstLaunch false)
      [.updatedTransactions [⟨1, .purchasing⟩], .updatedTransactions [⟨1, .purchased⟩], .launch] :=
  (idempotent_unlock_iff false _ (by simp [KnownEvent, Known])).mpr (by decide)

/- A purchase and then a restore in the same launch show the premium quotes twice. -/
theorem purchase_then_restore :
    ¬ Accepted ShowsExactlyAfter handle (firstLaunch false)
      [.updatedTransactions [⟨1, .purchased⟩], .updatedTransactions [⟨2, .restored⟩]] := by
  intro h
  have hshown := h _ (List.prefix_refl _)
  have hlength : (freeQuotes ++ premiumQuotes ++ premiumQuotes).length =
      (freeQuotes ++ premiumQuotes).length := congrArg List.length hshown
  exact absurd hlength (by decide)

end PracticeApps.InspoQuotes
