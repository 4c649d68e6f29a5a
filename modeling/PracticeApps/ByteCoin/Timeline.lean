import PracticeApps.ByteCoin.ViewController

/-!
# A run of the screen as a race

A pick issues a request, the answer of its task waits on the main queue, and
the block that runs there displays it. Each answer carries the code of the
currency that its request was picked for.
-/

namespace PracticeApps.ByteCoin
open DecimalText EventMachine Network Requests

variable {Data : Type} (decode : Data → Except String ExchangeRateData)

/-! ### What the events say -/

def pickedCurrency : Event Data → Option String
  | .didSelectRow row => CoinManager.currencyArray[row]?.filter (· ≠ "-")
  | _ => none

/- The currencies other than "-", in the order in which they were picked. -/
def pickedCurrencies (events : List (Event Data)) : List String := events.filterMap pickedCurrency

/- Every answer is a success and carries the code of its currency; a block or a
task is run only if it is there. -/
def Succeeds (s : ViewController) : Event Data → Prop
  | .didSelectRow _ => True
  | .runGlobal number => (pick Fetch.number number s.globalQueue).isSome
  | .answer number response =>
    match pick DataTask.number number s.tasks, decoded decode response with
    | some (task, _), some data => data.assetIdQuote = task.currency
    | _, _ => False
  | .runMain number => (pick Prod.fst number s.mainQueue).isSome

instance (s : ViewController) (e : Event Data) : Decidable (Succeeds decode s e) := by
  cases e <;> unfold Succeeds <;> dsimp only <;> (try split) <;> infer_instance

variable {decode} in
theorem succeeds_answer {s : ViewController} {number : ℕ} {response : Response Data}
    (h : Succeeds decode s (.answer number response)) :
    ∃ task rest data, pick DataTask.number number s.tasks = some (task, rest) ∧
      decoded decode response = some data ∧ data.assetIdQuote = task.currency := by
  unfold Succeeds at h
  dsimp only at h
  split at h
  next task rest data hpick hdecoded => exact ⟨task, rest, data, hpick, hdecoded, h⟩
  · exact h.elim

def Quiet (s : ViewController) : Prop := s.globalQueue = [] ∧ s.tasks = [] ∧ s.mainQueue = []

/-! ### The screen as a race -/

def moves : Event Data → List (Move ExchangeRateData)
  | .didSelectRow row => if (pickedCurrency (.didSelectRow row : Event Data)).isSome then [.issue] else []
  | .runGlobal _ => []
  | .answer number response => (decoded decode response).toList.map (.answer number)
  | .runMain number => [.display number]

/- A run of the screen, told as a race. -/
def timeline (events : List (Event Data)) : List (Move ExchangeRateData) :=
  events.flatMap (moves decode)

theorem timeline_concat (events : List (Event Data)) (e : Event Data) :
    timeline decode (events ++ [e]) = timeline decode events ++ moves decode e := by
  unfold timeline
  rw [List.flatMap_append, List.flatMap_singleton]

def labelTexts (data : ExchangeRateData) : Text × String := (rateText data, data.assetIdQuote)

def labels (s : ViewController) : Text × String := (s.bitcoinLabel, s.currencyLabel)

structure Refines (s : ViewController) (race : Race ExchangeRateData) : Prop where
  issued : race.issued = s.fetches
  pending : race.pending = (s.globalQueue.map Fetch.number ++ s.tasks.map DataTask.number : List ℕ)
  waiting : race.waiting.map (fun p => (p.1, Block.updateUI p.2)) = s.mainQueue
  labels : labels s = (race.shown.map labelTexts).getD (labels viewDidLoad)

theorem refines_start : Refines viewDidLoad Race.start := ⟨rfl, rfl, rfl, rfl⟩

/-! ### What a successful event does -/

/- The currency the event picks, its moves in the race, and the screen after it. -/
inductive Effect (s : ViewController) :
    Option String → List (Move ExchangeRateData) → ViewController → Prop
  | nothing : Effect s none [] s
  | picked (currency : String) :
    Effect s (some currency) [.issue] (fetchExchangeRate currency s)
  | started {fetch : Fetch} {globalQueue : List Fetch} {task : DataTask}
      (hfetch : (s.globalQueue : Multiset Fetch) = fetch ::ₘ (globalQueue : Multiset Fetch))
      (hnumber : task.number = fetch.number) (hcurrency : task.currency = fetch.currency) :
    Effect s none [] { s with globalQueue := globalQueue, tasks := s.tasks ++ [task] }
  | answered {task : DataTask} {tasks : List DataTask} {data : ExchangeRateData}
      (htask : (s.tasks : Multiset DataTask) = task ::ₘ (tasks : Multiset DataTask))
      (hquote : data.assetIdQuote = task.currency) :
    Effect s none [.answer task.number data]
      { s with tasks := tasks, mainQueue := s.mainQueue ++ [(task.number, .updateUI data)] }
  | displayed {block : ℕ × Block} {mainQueue : List (ℕ × Block)}
      (hblock : (s.mainQueue : Multiset (ℕ × Block)) =
        block ::ₘ (mainQueue : Multiset (ℕ × Block))) :
    Effect s none [.display block.1] (block.2.run { s with mainQueue := mainQueue })

variable {decode}

theorem didSelectRow_effect {s r : ViewController} {row : ℕ} (hr : didSelectRow row s = .ok r) :
    Effect s (pickedCurrency (.didSelectRow row : Event Data)) (moves decode (.didSelectRow row)) r := by
  unfold didSelectRow at hr
  unfold moves pickedCurrency
  cases hrow : CoinManager.currencyArray[row]? with
  | none =>
    rw [hrow] at hr
    cases hr
  | some selected =>
    simp only [hrow] at hr
    by_cases hdash : selected = "-"
    · rw [if_pos hdash] at hr
      cases hr
      simpa [hrow, hdash, Option.filter_some] using Effect.nothing
    · rw [if_neg hdash] at hr
      cases hr
      simpa [hrow, hdash, Option.filter_some] using Effect.picked selected

theorem handle_effect {s r : ViewController} {e : Event Data} (he : Succeeds decode s e)
    (hr : handle decode s e = .ok r) : Effect s (pickedCurrency e) (moves decode e) r := by
  cases e with
  | didSelectRow row => exact didSelectRow_effect hr
  | runGlobal number =>
    obtain ⟨⟨fetch, globalQueue⟩, hpick⟩ := Option.isSome_iff_exists.mp he
    have hr : getCoinPrice fetch { s with globalQueue := globalQueue } = .ok r := by
      simpa only [handle, hpick] using hr
    obtain ⟨task, hnumber, hcurrency, hprice⟩ :=
      getCoinPrice_eq fetch { s with globalQueue := globalQueue }
    rw [hprice] at hr
    cases hr
    exact Effect.started (pick_some hpick).2 hnumber hcurrency
  | answer number response =>
    obtain ⟨task, tasks, data, hpick, hdecoded, hquote⟩ := succeeds_answer he
    obtain ⟨hnumber, htask⟩ := pick_some hpick
    have hmoves : moves decode (.answer number response) = [.answer task.number data] := by
      simp only [moves, hdecoded, hnumber, Option.toList_some, List.map_cons, List.map_nil]
    simp only [handle, hpick, getExchangeRate, handleResponse_decoded hdecoded] at hr
    cases hr
    rw [hmoves]
    exact Effect.answered htask hquote
  | runMain number =>
    obtain ⟨⟨block, mainQueue⟩, hpick⟩ := Option.isSome_iff_exists.mp he
    obtain ⟨hnumber, hblock⟩ := pick_some hpick
    have hmoves : moves decode (.runMain number : Event Data) = [.display block.1] := by
      rw [hnumber]
      rfl
    simp only [handle, hpick] at hr
    cases hr
    rw [hmoves]
    exact Effect.displayed hblock

/-! ### The labels show the answer displayed last -/

theorem fetchExchangeRate_refines {s : ViewController} {race : Race ExchangeRateData}
    {ms : List (Move ExchangeRateData)} (hrun : Run ms race) (hs : Refines s race)
    (currency : String) :
    ∃ race', Run (ms ++ [.issue]) race' ∧ Refines (fetchExchangeRate currency s) race' := by
  refine ⟨_, Run.next hrun (.issue race), ?_, ?_, hs.waiting, hs.labels⟩
  · show race.issued + 1 = s.fetches + 1
    rw [hs.issued]
  · show race.issued ::ₘ race.pending = _
    rw [cons_eq_middle hs.pending, hs.issued]
    simp [fetchExchangeRate]

theorem started_refines {s : ViewController} {race : Race ExchangeRateData} {fetch : Fetch}
    {globalQueue : List Fetch} {task : DataTask} (hs : Refines s race)
    (hfetch : (s.globalQueue : Multiset Fetch) = fetch ::ₘ (globalQueue : Multiset Fetch))
    (hnumber : task.number = fetch.number) :
    Refines { s with globalQueue := globalQueue, tasks := s.tasks ++ [task] } race := by
  refine ⟨hs.issued, ?_, hs.waiting, hs.labels⟩
  have hpending : race.pending = fetch.number ::ₘ
      (globalQueue.map Fetch.number ++ s.tasks.map DataTask.number : List ℕ) := by
    rw [hs.pending, ← Multiset.coe_add, map_eq_cons Fetch.number hfetch, Multiset.cons_add,
      Multiset.coe_add]
  rw [hpending, cons_eq_concat rfl]
  simp [hnumber]

theorem answer_refines {s : ViewController} {race : Race ExchangeRateData} {task : DataTask}
    {tasks : List DataTask} {data : ExchangeRateData} {ms : List (Move ExchangeRateData)}
    (hrun : Run ms race) (hs : Refines s race)
    (htask : (s.tasks : Multiset DataTask) = task ::ₘ (tasks : Multiset DataTask)) :
    ∃ race', Run (ms ++ [.answer task.number data]) race' ∧
      Refines { s with tasks := tasks, mainQueue := s.mainQueue ++ [(task.number, .updateUI data)] }
        race' := by
  have hpending : race.pending = task.number ::ₘ
      (s.globalQueue.map Fetch.number ++ tasks.map DataTask.number : List ℕ) := by
    rw [hs.pending, ← Multiset.coe_add, map_eq_cons DataTask.number htask, Multiset.add_cons,
      Multiset.coe_add]
  refine ⟨_, Run.next hrun (.answer data hpending), hs.issued, rfl, ?_, hs.labels⟩
  rw [Multiset.map_cons]
  exact cons_eq_concat hs.waiting _

theorem runMain_refines {s : ViewController} {race : Race ExchangeRateData} {block : ℕ × Block}
    {mainQueue : List (ℕ × Block)} {ms : List (Move ExchangeRateData)}
    (hrun : Run ms race) (hs : Refines s race)
    (hblock : (s.mainQueue : Multiset (ℕ × Block)) = block ::ₘ (mainQueue : Multiset (ℕ × Block))) :
    ∃ race', Run (ms ++ [.display block.1]) race' ∧
      Refines (block.2.run { s with mainQueue := mainQueue }) race' := by
  obtain ⟨p, hp, hp', hrest⟩ := (Multiset.map_eq_cons _ _ _ _).mpr (hs.waiting.trans hblock)
  have hwaiting : race.waiting = (p.1, p.2) ::ₘ race.waiting.erase p := (Multiset.cons_erase hp).symm
  rw [← hp']
  refine ⟨_, Run.next hrun (.display hwaiting), hs.issued, hs.pending, hrest, ?_⟩
  unfold Race.shown
  rw [List.getLast?_concat]
  rfl

/- One event is at most one move. -/
theorem effect_refines {s r : ViewController} {race : Race ExchangeRateData} {picked : Option String}
    {ms effect : List (Move ExchangeRateData)} (hrun : Run ms race) (hs : Refines s race)
    (he : Effect s picked effect r) : ∃ race', Run (ms ++ effect) race' ∧ Refines r race' := by
  cases he with
  | nothing => exact ⟨race, by simpa using hrun, hs⟩
  | picked currency => exact fetchExchangeRate_refines hrun hs currency
  | started hfetch hnumber _ => exact ⟨race, by simpa using hrun, started_refines hs hfetch hnumber⟩
  | answered htask _ => exact answer_refines hrun hs htask
  | displayed hblock => exact runMain_refines hrun hs hblock

theorem run_refines {events : List (Event Data)} {s : ViewController}
    (hsucceeds : AtEach (Succeeds decode) (handle decode) viewDidLoad events)
    (hr : exec (handle decode) viewDidLoad events = .ok s) :
    ∃ race, Run (timeline decode events) race ∧ Refines s race := by
  refine exec_history (I := fun events s => ∃ race, Run (timeline decode events) race ∧
    Refines s race) ⟨Race.start, .start, refines_start⟩ ?_ hsucceeds hr
  intro es s e r hs he hr
  obtain ⟨race, hrun, href⟩ := hs
  obtain ⟨race', hrun', href'⟩ := effect_refines hrun href (handle_effect he hr)
  refine ⟨race', ?_, href'⟩
  rw [timeline_concat]
  exact hrun'

theorem refines_quiet {s : ViewController} {race : Race ExchangeRateData} (h : Refines s race)
    (hquiet : Quiet s) : race.Quiet := by
  obtain ⟨hglobal, htasks, hmain⟩ := hquiet
  constructor
  · rw [h.pending, hglobal, htasks]
    rfl
  · have hnone := h.waiting
    rw [hmain, Multiset.coe_nil, Multiset.map_eq_zero] at hnone
    exact hnone

/-! ### Reading the moves off the events -/

theorem timeline_issued (events : List (Event Data)) :
    (timeline decode events).countP Move.isIssue = (pickedCurrencies events).length := by
  unfold timeline pickedCurrencies
  induction events with
  | nil => rfl
  | cons e events ih =>
    rw [List.flatMap_cons, List.countP_append, ih, List.filterMap_cons]
    cases e with
    | didSelectRow row =>
      cases hpicked : pickedCurrency (.didSelectRow row : Event Data) with
      | none => simp [moves, hpicked]
      | some currency => simp [moves, hpicked, Move.isIssue, Nat.add_comm]
    | runGlobal number => simp [moves, pickedCurrency]
    | answer number response =>
      cases hd : decoded decode response <;> simp [moves, pickedCurrency, hd, Move.isIssue]
    | runMain number => simp [moves, pickedCurrency, Move.isIssue]

variable (decode) in
theorem timeline_kept (events : List (Event Data)) (n : ℕ) :
    Move.abandon n ∉ timeline decode events := by
  intro h
  obtain ⟨e, _, he⟩ := List.mem_flatMap.mp h
  cases e with
  | didSelectRow row =>
    cases hpicked : pickedCurrency (.didSelectRow row : Event Data) <;> simp [moves, hpicked] at he
  | runGlobal number => simp [moves] at he
  | answer number response => simp [moves] at he
  | runMain number => simp [moves] at he

/-! ### Each answer carries the code of its pick -/

def PickedAs (events : List (Event Data)) (number : ℕ) (currency : String) : Prop :=
  (pickedCurrencies events)[number]? = some currency

theorem pickedAs_append {events : List (Event Data)} {number : ℕ} {currency : String}
    (h : PickedAs events number currency) (e : Event Data) :
    PickedAs (events ++ [e]) number currency := by
  unfold PickedAs pickedCurrencies at h ⊢
  rw [List.filterMap_append, List.getElem?_append_left (List.getElem?_eq_some_iff.mp h).1]
  exact h

structure FollowsPicks (decode : Data → Except String ExchangeRateData)
    (events : List (Event Data)) (s : ViewController) : Prop where
  fetches : s.fetches = (pickedCurrencies events).length
  fetched : ∀ f ∈ s.globalQueue, PickedAs events f.number f.currency
  asked : ∀ t ∈ s.tasks, PickedAs events t.number t.currency
  answered : ∀ n data, Move.answer n data ∈ timeline decode events →
    PickedAs events n data.assetIdQuote

/- An event that picks nothing and starts no fetch of its own. -/
theorem followsPicks_of_subset {events : List (Event Data)} {s r : ViewController} {e : Event Data}
    (h : FollowsPicks decode events s) (hpick : pickedCurrency e = none)
    (hfetches : r.fetches = s.fetches)
    (hfetched : ∀ f ∈ r.globalQueue, f ∈ s.globalQueue)
    (hasked : ∀ t ∈ r.tasks, PickedAs events t.number t.currency)
    (hanswered : ∀ n data, Move.answer n data ∈ moves decode e → PickedAs events n data.assetIdQuote) :
    FollowsPicks decode (events ++ [e]) r := by
  refine ⟨?_, ?_, ?_, ?_⟩
  · rw [hfetches, h.fetches]
    simp [pickedCurrencies, hpick]
  · intro f hf
    exact pickedAs_append (h.fetched f (hfetched f hf)) e
  · intro t ht
    exact pickedAs_append (hasked t ht) e
  · intro n data hmem
    rw [timeline_concat, List.mem_append] at hmem
    rcases hmem with hmem | hmem
    · exact pickedAs_append (h.answered n data hmem) e
    · exact pickedAs_append (hanswered n data hmem) e

theorem fetchExchangeRate_followsPicks {events : List (Event Data)} {s : ViewController}
    {e : Event Data} {currency : String} (h : FollowsPicks decode events s)
    (hpick : pickedCurrency e = some currency)
    (hanswer : ∀ n data, Move.answer n data ∉ moves decode e) :
    FollowsPicks decode (events ++ [e]) (fetchExchangeRate currency s) := by
  refine ⟨?_, ?_, ?_, ?_⟩
  · show s.fetches + 1 = _
    rw [h.fetches]
    simp [pickedCurrencies, hpick]
  · intro f hf
    rcases List.mem_append.mp hf with hf | hf
    · exact pickedAs_append (h.fetched f hf) e
    · rw [List.mem_singleton.mp hf]
      unfold PickedAs pickedCurrencies
      rw [List.filterMap_append, h.fetches]
      simp [pickedCurrencies, hpick]
  · intro t ht
    exact pickedAs_append (h.asked t ht) e
  · intro n data hmem
    rw [timeline_concat, List.mem_append] at hmem
    rcases hmem with hmem | hmem
    · exact pickedAs_append (h.answered n data hmem) e
    · exact absurd hmem (hanswer n data)

theorem run_keeps (block : Block) (s : ViewController) :
    (block.run s).fetches = s.fetches ∧ (block.run s).globalQueue = s.globalQueue ∧
      (block.run s).tasks = s.tasks := by
  cases block <;> exact ⟨rfl, rfl, rfl⟩

theorem effect_followsPicks {events : List (Event Data)} {s r : ViewController} {e : Event Data}
    {picked : Option String} {effect : List (Move ExchangeRateData)}
    (h : FollowsPicks decode events s) (hpick : pickedCurrency e = picked)
    (hmoves : moves decode e = effect) (he : Effect s picked effect r) :
    FollowsPicks decode (events ++ [e]) r := by
  cases he with
  | nothing =>
    refine followsPicks_of_subset h hpick rfl (fun _ hf => hf) h.asked ?_
    intro n data hmem
    rw [hmoves] at hmem
    cases hmem
  | picked currency =>
    apply fetchExchangeRate_followsPicks h hpick
    intro n data hmem
    rw [hmoves] at hmem
    simp at hmem
  | @started fetch globalQueue task hfetch hnumber hcurrency =>
    refine followsPicks_of_subset h hpick rfl (fun f hf => mem_of_mem_rest hfetch hf) ?_ ?_
    · intro t ht
      rcases List.mem_append.mp ht with ht | ht
      · exact h.asked t ht
      · rw [List.mem_singleton.mp ht, hnumber, hcurrency]
        exact h.fetched fetch (mem_taken hfetch)
    · intro n data hmem
      rw [hmoves] at hmem
      cases hmem
  | @answered task tasks data htask hquote =>
    refine followsPicks_of_subset h hpick rfl (fun _ hf => hf)
      (fun t ht => h.asked t (mem_of_mem_rest htask ht)) ?_
    intro n other hmem
    rw [hmoves, List.mem_singleton] at hmem
    cases hmem
    rw [hquote]
    exact h.asked task (mem_taken htask)
  | @displayed block mainQueue _ =>
    obtain ⟨hfetches, hglobal, htasks⟩ := run_keeps block.2 { s with mainQueue := mainQueue }
    refine followsPicks_of_subset h hpick hfetches ?_ ?_ ?_
    · intro f hf
      rw [hglobal] at hf
      exact hf
    · intro t ht
      rw [htasks] at ht
      exact h.asked t ht
    · intro n data hmem
      rw [hmoves] at hmem
      simp at hmem

theorem run_followsPicks {events : List (Event Data)} {s : ViewController}
    (hsucceeds : AtEach (Succeeds decode) (handle decode) viewDidLoad events)
    (hr : exec (handle decode) viewDidLoad events = .ok s) : FollowsPicks decode events s := by
  refine exec_history (I := FollowsPicks decode) ?_ ?_ hsucceeds hr
  · exact ⟨rfl, fun _ h => (List.not_mem_nil h).elim, fun _ h => (List.not_mem_nil h).elim,
      fun _ _ h => (List.not_mem_nil h).elim⟩
  · intro es s e r hs he hr
    exact effect_followsPicks hs rfl rfl (handle_effect he hr)

end PracticeApps.ByteCoin
