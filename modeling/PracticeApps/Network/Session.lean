import PracticeApps.Library.EventMachine
import PracticeApps.Library.Race
import PracticeApps.Network.DataTask

/-!
# Fetches of a loader

A loader hands the session a data task for each fetch, and the task's handler
calls the completion handler of that fetch. The fetches are told apart by
numbers; `calls` lists the calls of the completion handlers in the order in
which they are made.
-/

namespace PracticeApps.Network
open EventMachine Requests

/-! ### Loaders -/

/- The address of a request can always be built, and `decode` reads an answer. -/
structure Loader (Request Data A : Type) where
  url : Request → Except Trap URLComponents
  url_ok : ∀ request, ∃ components, url request = .ok components
  decode : Data → Except String A

/- A resumed task. -/
structure Task where
  number : ℕ
  url : URLComponents
  deriving DecidableEq, Repr

structure Session (A : Type) where
  fetches : List ℕ
  tasks : List Task
  calls : List (ℕ × FetchResult A)
  deriving DecidableEq, Repr

inductive NetworkEvent (Request Data : Type) where
  | fetch (number : ℕ) (request : Request)
  | answer (number : ℕ) (response : Response Data)
  deriving DecidableEq, Repr

variable {Request Data A : Type}

def Session.start : Session A := ⟨[], [], []⟩

def Session.pending (s : Session A) : List ℕ := s.tasks.map Task.number

/- The calls of the completion handler of one fetch. -/
def Session.callsOf (s : Session A) (n : ℕ) : List (FetchResult A) :=
  (s.calls.filter fun call => call.1 = n).map Prod.snd

def Loader.fetch (loader : Loader Request Data A) (number : ℕ) (request : Request)
    (s : Session A) : Except Trap (Session A) :=
  match loader.url request with
  | .error t => .error t
  | .ok url =>
    .ok { s with fetches := s.fetches ++ [number], tasks := s.tasks ++ [⟨number, url⟩] }

/- The handler of the task. -/
def Loader.answer (loader : Loader Request Data A) (number : ℕ) (response : Response Data)
    (s : Session A) : Except Trap (Session A) :=
  match handleResponse loader.decode response with
  | (_, some t) => .error t
  | (results, none) => .ok { s with calls := s.calls ++ results.map fun result => (number, result) }

def Loader.step (loader : Loader Request Data A) (s : Session A) :
    NetworkEvent Request Data → Except Trap (Session A)
  | .fetch number request => loader.fetch number request s
  | .answer number response =>
    match pick Task.number number s.tasks with
    | none => .ok s
    | some (task, tasks) => loader.answer task.number response { s with tasks := tasks }

/- What the session delivers: every fetch has a task of its own, which gets one
answer, with a body or an error or both. -/
def Delivered (s : Session A) : NetworkEvent Request Data → Prop
  | .fetch number _ => number ∉ s.fetches
  | .answer number response =>
    number ∈ s.pending ∧ (response.data.isSome = true ∨ response.error.isSome = true)

instance (s : Session A) : (e : NetworkEvent Request Data) → Decidable (Delivered s e)
  | .fetch number _ => inferInstanceAs (Decidable (number ∉ s.fetches))
  | .answer number response =>
    inferInstanceAs (Decidable (number ∈ s.pending ∧
      (response.data.isSome = true ∨ response.error.isSome = true)))

/-! ### One completion for each fetch -/

/- What the completion handler is told of an answer: the transport error if there
is one, and otherwise what the body decodes to. -/
inductive Reported (decode : Data → Except String A) : Response Data → FetchResult A → Prop
  | transport (data : Option Data) (error : String) :
    Reported decode ⟨data, some error⟩ (.failure (.transport error))
  | success {data : Data} {a : A} (h : decode data = .ok a) :
    Reported decode ⟨some data, none⟩ (.success a)
  | decoding {data : Data} {error : String} (h : decode data = .error error) :
    Reported decode ⟨some data, none⟩ (.failure (.decoding error))

/- An answered fetch has had one call, the others none. -/
structure OneCall (decode : Data → Except String A) (events : List (NetworkEvent Request Data))
    (s : Session A) : Prop where
  answered : ∀ n response, NetworkEvent.answer n response ∈ events →
    ∃ result, Reported decode response result ∧ s.callsOf n = [result]
  unanswered : ∀ n, (∀ response, NetworkEvent.answer n response ∉ events) → s.callsOf n = []

/- The run ends without a trap, and with one call for each fetch that was answered. -/
def CompletesOnce (loader : Loader Request Data A) (events : List (NetworkEvent Request Data)) :
    Prop :=
  ∃ s, exec loader.step Session.start events = .ok s ∧ OneCall loader.decode events s

def NoTransportError (events : List (NetworkEvent Request Data)) : Prop :=
  ∀ n response, NetworkEvent.answer n response ∈ events → response.error = none

/-! ### The handler of a task -/

/-- Without a transport error the handler makes the one call that it should. -/
theorem handleResponse_reported (decode : Data → Except String A) {response : Response Data}
    (hdata : response.data.isSome = true ∨ response.error.isSome = true)
    (herror : response.error = none) :
    ∃ result, Reported decode response result ∧ handleResponse decode response = ([result], none) := by
  obtain ⟨data, error⟩ := response
  cases herror
  obtain ⟨body, hbody⟩ := Option.isSome_iff_exists.mp (hdata.resolve_right (by simp))
  cases hbody
  cases hdecode : decode body with
  | ok a =>
    refine ⟨.success a, .success hdecode, ?_⟩
    simp only [handleResponse, hdecode, List.nil_append]
  | error error =>
    refine ⟨.failure (.decoding error), .decoding hdecode, ?_⟩
    simp only [handleResponse, hdecode, List.nil_append]

/-- A single call without a trap is only made when there was no transport error. -/
theorem error_eq_none_of_single {decode : Data → Except String A} {response : Response Data}
    {result : FetchResult A} (h : handleResponse decode response = ([result], none)) :
    response.error = none := by
  obtain ⟨data, error⟩ := response
  cases error with
  | none => rfl
  | some error =>
    -- the error is reported, and then the body is unwrapped and decoded all the same
    cases data with
    | none =>
      have htrap := congrArg Prod.snd h
      simp only [handleResponse, reduceCtorEq] at htrap
    | some body =>
      have hlength := congrArg (fun p => p.1.length) h
      cases hdecode : decode body <;>
        simp [handleResponse, hdecode] at hlength

theorem data_of_no_trap {decode : Data → Except String A} {response : Response Data}
    {results : List (FetchResult A)} (h : handleResponse decode response = (results, none)) :
    response.data.isSome = true := by
  obtain ⟨data, error⟩ := response
  cases data with
  | none =>
    have htrap := congrArg Prod.snd h
    simp only [handleResponse, reduceCtorEq] at htrap
  | some body => rfl

theorem trap_of_no_data {decode : Data → Except String A} {response : Response Data}
    {results : List (FetchResult A)} {t : Trap}
    (h : handleResponse decode response = (results, some t)) :
    t = .unwrappedNil ∧ response.data = none := by
  obtain ⟨data, error⟩ := response
  have htrap := congrArg Prod.snd h
  cases data with
  | none =>
    simp only [handleResponse, Option.some.injEq] at htrap
    exact ⟨htrap.symm, rfl⟩
  | some body =>
    cases hdecode : decode body <;> simp only [handleResponse, hdecode, reduceCtorEq] at htrap

/-! ### The state after a run -/

/- Which fetches are pending, and the calls that each has had. -/
structure Ledger (decode : Data → Except String A) (events : List (NetworkEvent Request Data))
    (s : Session A) : Prop where
  nodup : s.pending.Nodup
  pending : ∀ n, n ∈ s.pending ↔
    n ∈ s.fetches ∧ ∀ response, NetworkEvent.answer n response ∉ events
  answered : ∀ n response, NetworkEvent.answer n response ∈ events →
    n ∈ s.fetches ∧ handleResponse decode response = (s.callsOf n, none)
  unanswered : ∀ n, (∀ response, NetworkEvent.answer n response ∉ events) → s.callsOf n = []

variable {decode : Data → Except String A} {loader : Loader Request Data A}

theorem ledger_start : Ledger decode ([] : List (NetworkEvent Request Data)) Session.start :=
  ⟨List.nodup_nil, by simp [Session.pending, Session.start], by simp,
    by simp [Session.callsOf, Session.start]⟩

/- The numbers that stay when the task of one number is taken out. -/
theorem pending_pick {s : Session A} {number : ℕ} {task : Task} {tasks : List Task}
    (hnodup : s.pending.Nodup) (h : pick Task.number number s.tasks = some (task, tasks)) :
    (tasks.map Task.number).Nodup ∧
      ∀ n, n ∈ tasks.map Task.number ↔ n ∈ s.pending ∧ n ≠ number := by
  obtain ⟨hnumber, htasks⟩ := pick_some h
  have hpending := map_eq_cons Task.number htasks
  rw [hnumber, Multiset.cons_coe, Multiset.coe_eq_coe] at hpending
  have hnodup : (number :: tasks.map Task.number).Nodup := hpending.nodup_iff.mp hnodup
  obtain ⟨hout, hrest⟩ := List.nodup_cons.mp hnodup
  refine ⟨hrest, fun n => ?_⟩
  unfold Session.pending
  rw [hpending.mem_iff, List.mem_cons]
  constructor
  · intro hn
    refine ⟨Or.inr hn, ?_⟩
    rintro rfl
    exact hout hn
  · rintro ⟨hn, hne⟩
    exact hn.resolve_left hne

theorem callsOf_append (s : Session A) (tasks : List Task) (number n : ℕ)
    (results : List (FetchResult A)) :
    ({ s with
        tasks := tasks
        calls := s.calls ++ results.map fun result => (number, result) } : Session A).callsOf n =
      s.callsOf n ++ if n = number then results else [] := by
  unfold Session.callsOf
  rw [List.filter_append, List.map_append]
  congr 1
  by_cases hn : n = number
  · subst hn
    simp [List.filter_map, Function.comp_def]
  · have hne : ¬ number = n := fun h => hn h.symm
    simp [hn, hne]

theorem fetch_ok (loader : Loader Request Data A) (s : Session A) (number : ℕ)
    (request : Request) :
    ∃ url, loader.step s (.fetch number request) =
      .ok { s with fetches := s.fetches ++ [number], tasks := s.tasks ++ [⟨number, url⟩] } := by
  obtain ⟨url, hurl⟩ := loader.url_ok request
  refine ⟨url, ?_⟩
  simp only [Loader.step, Loader.fetch, hurl]

theorem ledger_fetch {events : List (NetworkEvent Request Data)} {s : Session A}
    (h : Ledger decode events s) {number : ℕ} (hnumber : number ∉ s.fetches) (request : Request)
    (url : URLComponents) :
    Ledger decode (events ++ [.fetch number request])
      { s with fetches := s.fetches ++ [number], tasks := s.tasks ++ [⟨number, url⟩] } := by
  have hfresh : number ∉ s.pending := fun hn => hnumber ((h.pending number).mp hn).1
  have hmem : ∀ n response, NetworkEvent.answer n response ∈ events ++ [.fetch number request] ↔
      NetworkEvent.answer n response ∈ events := by simp
  have hpending : ∀ n, n ∈ s.tasks.map Task.number ++ [number] ↔
      n ∈ s.fetches ++ [number] ∧ ∀ response, NetworkEvent.answer n response ∉ events := by
    intro n
    have hn := h.pending n
    unfold Session.pending at hn
    rw [List.mem_append, List.mem_append, hn, List.mem_singleton]
    constructor
    · rintro (⟨hfetched, hnone⟩ | rfl)
      · exact ⟨Or.inl hfetched, hnone⟩
      · exact ⟨Or.inr rfl, fun response hr => hnumber (h.answered n response hr).1⟩
    · rintro ⟨hfetched | rfl, hnone⟩
      · exact Or.inl ⟨hfetched, hnone⟩
      · exact Or.inr rfl
  refine ⟨?_, ?_, ?_, ?_⟩
  · have hnodup := h.nodup.concat hfresh
    simpa [Session.pending] using hnodup
  · intro n
    simpa [Session.pending, hmem] using hpending n
  · intro n response hr
    obtain ⟨hfetched, hcalls⟩ := h.answered n response ((hmem n response).mp hr)
    exact ⟨List.mem_append_left _ hfetched, hcalls⟩
  · intro n hnone
    refine h.unanswered n fun response hr => hnone response ?_
    exact (hmem n response).mpr hr

/-- The answer to a pending task is handled with that task taken out. -/
theorem answer_eq (loader : Loader Request Data A) {s : Session A} {number : ℕ}
    (hnodup : s.pending.Nodup) (hnumber : number ∈ s.pending) (response : Response Data) :
    ∃ tasks : List Task, (tasks.map Task.number).Nodup ∧
      (∀ n, n ∈ tasks.map Task.number ↔ n ∈ s.pending ∧ n ≠ number) ∧
      loader.step s (.answer number response) =
        loader.answer number response { s with tasks := tasks } := by
  obtain ⟨task, tasks, hpick⟩ := exists_pick hnumber
  obtain ⟨hrest, hmem⟩ := pending_pick hnodup hpick
  refine ⟨tasks, hrest, hmem, ?_⟩
  simp only [Loader.step, hpick, (pick_some hpick).1]

/- A session whose tasks are those of a list kept elsewhere. -/
theorem answer_unknown {E : Type} (loader : Loader Request Data A) (task : E → Task) {l : List E}
    {s : Session A} (htasks : s.tasks = l.map task) {number : ℕ} (response : Response Data)
    (h : pick (fun e => (task e).number) number l = none) :
    loader.step s (.answer number response) = .ok s := by
  have hpick := pick_map Task.number task number l
  rw [← htasks, h, Option.map_none] at hpick
  simp only [Loader.step, hpick]

theorem answer_known {E : Type} (loader : Loader Request Data A) (task : E → Task)
    {l rest : List E} {e : E} {s : Session A} (htasks : s.tasks = l.map task) {number : ℕ} (response : Response Data)
    (h : pick (fun e => (task e).number) number l = some (e, rest)) :
    loader.step s (.answer number response) =
      loader.answer (task e).number response { s with tasks := rest.map task } := by
  have hpick := pick_map Task.number task number l
  rw [← htasks, h, Option.map_some] at hpick
  simp only [Loader.step, hpick]

theorem answer_ok {s : Session A} {number : ℕ} {response : Response Data}
    {results : List (FetchResult A)}
    (hresults : handleResponse loader.decode response = (results, none)) :
    loader.answer number response s =
      .ok { s with calls := s.calls ++ results.map fun result => (number, result) } := by
  simp only [Loader.answer, hresults]

theorem answer_inv {s r : Session A} {number : ℕ} {response : Response Data}
    (hr : loader.answer number response s = .ok r) :
    ∃ results, handleResponse loader.decode response = (results, none) ∧
      r = { s with calls := s.calls ++ results.map fun result => (number, result) } := by
  unfold Loader.answer at hr
  split at hr
  · cases hr
  next results hresults =>
    cases hr
    exact ⟨results, hresults, rfl⟩

theorem answer_trap {s : Session A} {number : ℕ} {response : Response Data} {t : Trap}
    (ht : loader.step s (.answer number response) = .error t) :
    t = .unwrappedNil ∧ response.data = none := by
  unfold Loader.step at ht
  dsimp only at ht
  split at ht
  · cases ht
  · unfold Loader.answer at ht
    split at ht
    next results u hresults =>
      cases ht
      exact trap_of_no_data hresults
    · cases ht

theorem ledger_answer {events : List (NetworkEvent Request Data)} {s : Session A}
    (h : Ledger decode events s) {number : ℕ} (hnumber : number ∈ s.pending)
    {response : Response Data} {results : List (FetchResult A)}
    (hresults : handleResponse decode response = (results, none)) {tasks : List Task}
    (hnodup : (tasks.map Task.number).Nodup)
    (htasks : ∀ n, n ∈ tasks.map Task.number ↔ n ∈ s.pending ∧ n ≠ number) :
    Ledger decode (events ++ [.answer number response])
      { s with
        tasks := tasks
        calls := s.calls ++ results.map fun result => (number, result) } := by
  obtain ⟨hfetched, hnone⟩ := (h.pending number).mp hnumber
  have hmem : ∀ n other, NetworkEvent.answer n other ∈ events ++ [.answer number response] ↔
      NetworkEvent.answer n other ∈ events ∨ n = number ∧ other = response := by simp
  refine ⟨hnodup, ?_, ?_, ?_⟩
  · intro n
    have hn := htasks n
    rw [h.pending n] at hn
    simp only [Session.pending, hn, hmem, not_or, not_and]
    constructor
    · rintro ⟨⟨hn, hold⟩, hne⟩
      exact ⟨hn, fun other => ⟨hold other, fun hn => absurd hn hne⟩⟩
    · rintro ⟨hn, hold⟩
      exact ⟨⟨hn, fun other => (hold other).1⟩, fun hn => (hold response).2 hn rfl⟩
  · intro n other hother
    rw [callsOf_append]
    rcases (hmem n other).mp hother with hold | ⟨rfl, rfl⟩
    · -- an earlier answer is not to this task, which was pending until now
      have hne : n ≠ number := by
        rintro rfl
        exact hnone other hold
      rw [if_neg hne, List.append_nil]
      exact h.answered n other hold
    · rw [if_pos rfl, h.unanswered n hnone, List.nil_append]
      exact ⟨hfetched, hresults⟩
  · intro n hn
    have hne : n ≠ number := by
      rintro rfl
      exact hn response ((hmem n response).mpr (Or.inr ⟨rfl, rfl⟩))
    rw [callsOf_append, if_neg hne, List.append_nil]
    exact h.unanswered n fun other hold => hn other ((hmem n other).mpr (Or.inl hold))

theorem ledger_step {events : List (NetworkEvent Request Data)} {s r : Session A}
    {e : NetworkEvent Request Data} (h : Ledger loader.decode events s) (he : Delivered s e)
    (hr : loader.step s e = .ok r) : Ledger loader.decode (events ++ [e]) r := by
  cases e with
  | fetch number request =>
    obtain ⟨url, hstep⟩ := fetch_ok loader s number request
    rw [hstep] at hr
    cases hr
    exact ledger_fetch h he request url
  | answer number response =>
    obtain ⟨tasks, hnodup, htasks, hstep⟩ :=
      answer_eq loader h.nodup he.1 response
    rw [hstep] at hr
    obtain ⟨results, hresults, rfl⟩ := answer_inv hr
    exact ledger_answer h he.1 hresults hnodup htasks

/-- After any run that has not trapped, the ledger tells the calls of every fetch. -/
theorem run_ledger {events : List (NetworkEvent Request Data)} {s : Session A}
    (hdelivered : AtEach Delivered loader.step Session.start events)
    (hs : exec loader.step Session.start events = .ok s) : Ledger loader.decode events s :=
  exec_history ledger_start (fun _ _ _ _ h he hr => ledger_step h he hr) hdelivered hs

/- An event that carries no transport error. -/
def NetworkEvent.Clean : NetworkEvent Request Data → Prop
  | .fetch _ _ => True
  | .answer _ response => response.error = none

theorem step_safe {events : List (NetworkEvent Request Data)} {s : Session A}
    {e : NetworkEvent Request Data} (h : Ledger loader.decode events s) (he : Delivered s e)
    (hclean : e.Clean) : ∃ r, loader.step s e = .ok r := by
  cases e with
  | fetch number request =>
    obtain ⟨url, hstep⟩ := fetch_ok loader s number request
    exact ⟨_, hstep⟩
  | answer number response =>
    obtain ⟨tasks, _, _, hstep⟩ := answer_eq loader h.nodup he.1 response
    obtain ⟨result, _, hresult⟩ :=
      handleResponse_reported loader.decode he.2 hclean
    rw [hstep, answer_ok hresult]
    exact ⟨_, rfl⟩

/-- Without transport errors no run traps. -/
theorem run_safe {events : List (NetworkEvent Request Data)}
    (hdelivered : AtEach Delivered loader.step Session.start events)
    (hnone : NoTransportError events) :
    ∃ s, exec loader.step Session.start events = .ok s ∧ Ledger loader.decode events s := by
  have hclean : ∀ e ∈ events, ∀ _ : Session A, e.Clean := by
    intro e he _
    cases e with
    | fetch number request => trivial
    | answer number response => exact hnone number response he
  have hboth := atEach_and hdelivered (atEach_of_mem hclean Session.start)
  refine exec_safe ledger_start ?_ hboth
  intro sent s e h he
  obtain ⟨r, hr⟩ := step_safe h he.1 he.2
  exact ⟨r, hr, ledger_step h he.1 hr⟩

/-- A run that traps unwraps a body that is not there. -/
theorem trap_inv {events : List (NetworkEvent Request Data)} {s : Session A} {t : Trap}
    (ht : exec loader.step s events = .error t) :
    t = .unwrappedNil ∧ ∃ n response, NetworkEvent.answer n response ∈ events ∧
      response.data = none := by
  induction events generalizing s with
  | nil => cases ht
  | cons e events ih =>
    cases hs : loader.step s e with
    | ok r =>
      rw [exec_cons_ok events hs] at ht
      obtain ⟨hnil, n, response, hr, hdata⟩ := ih ht
      exact ⟨hnil, n, response, List.mem_cons_of_mem _ hr, hdata⟩
    | error u =>
      rw [exec_cons_error events hs] at ht
      cases ht
      cases e with
      | fetch number request =>
        obtain ⟨url, hstep⟩ := fetch_ok loader s number request
        rw [hstep] at hs
        cases hs
      | answer number response =>
        obtain ⟨hnil, hdata⟩ := answer_trap hs
        exact ⟨hnil, number, response, List.mem_cons_self, hdata⟩

/-- A run completes once for each fetch exactly when no answer carries a transport error. -/
theorem completesOnce_iff {events : List (NetworkEvent Request Data)}
    (hdelivered : AtEach Delivered loader.step Session.start events) :
    CompletesOnce loader events ↔ NoTransportError events := by
  constructor
  · rintro ⟨s, hs, hone⟩ n response hr
    obtain ⟨result, _, hcalls⟩ := hone.answered n response hr
    obtain ⟨_, hresponse⟩ := (run_ledger hdelivered hs).answered n response hr
    rw [hcalls] at hresponse
    exact error_eq_none_of_single hresponse
  · intro hnone
    obtain ⟨s, hs, hledger⟩ := run_safe hdelivered hnone
    refine ⟨s, hs, ⟨fun n response hr => ?_, hledger.unanswered⟩⟩
    obtain ⟨_, hresponse⟩ := hledger.answered n response hr
    obtain ⟨result, hreported, hresult⟩ := handleResponse_reported loader.decode
      (Or.inl (data_of_no_trap hresponse)) (hnone n response hr)
    refine ⟨result, hreported, ?_⟩
    rw [hresult] at hresponse
    exact (Prod.mk.inj hresponse).1.symm

end PracticeApps.Network
