import Mathlib.Data.Nat.Notation

/-!
# Data tasks of the session

`CoinManager.getExchangeRate` and `WeatherLoader.request` hand the session the
same handler: a transport error is reported and the body is decoded all the
same, unwrapped by force. `decode` is the JSON decoder of the answer's type.
-/

namespace PracticeApps.Network

/-! ### Addresses -/

structure URLComponents where
  scheme : String
  host : String
  path : String
  queryItems : List (String × String)
  deriving DecidableEq, Repr

/- With a host, the path has to be empty or absolute. -/
def URLComponents.url (components : URLComponents) : Option URLComponents :=
  match components.path.toList with
  | [] => some components
  | c :: _ => if c = '/' then some components else none

theorem url_absolute {components : URLComponents} {rest : List Char}
    (h : components.path.toList = '/' :: rest) : components.url = some components := by
  unfold URLComponents.url
  rw [h]
  rfl

/-! ### Answers -/

/- What the session passes to the handler; the response itself is not read. -/
structure Response (Data : Type) where
  data : Option Data
  error : Option String
  deriving DecidableEq, Repr

inductive FetchError where
  | transport (localizedDescription : String)
  | decoding (localizedDescription : String)
  deriving DecidableEq, Repr

def FetchError.localizedDescription : FetchError → String
  | .transport d => d
  | .decoding d => d

inductive FetchResult (A : Type) where
  | success (a : A)
  | failure (error : FetchError)
  deriving DecidableEq, Repr

inductive Trap where
  | couldNotCreateURL
  | unwrappedNil
  deriving DecidableEq, Repr

variable {Data A : Type}

/- The calls of the completion handler, in order, and the trap if there is one. -/
def handleResponse (decode : Data → Except String A) (response : Response Data) :
    List (FetchResult A) × Option Trap :=
  let reported := match response.error with
    | some error => [.failure (.transport error)]
    | none => []
  match response.data with
  | none => (reported, some .unwrappedNil)
  | some data =>
    match decode data with
    | .ok a => (reported ++ [.success a], none)
    | .error error => (reported ++ [.failure (.decoding error)], none)

/- The value of an answer without a transport error whose body decodes. -/
def decoded (decode : Data → Except String A) (response : Response Data) : Option A :=
  match response.error, response.data with
  | none, some data => (decode data).toOption
  | _, _ => none

/-- An answer that succeeds calls the completion handler once, with its value. -/
theorem handleResponse_decoded {decode : Data → Except String A} {response : Response Data} {a : A}
    (h : decoded decode response = some a) :
    handleResponse decode response = ([.success a], none) := by
  unfold decoded at h
  unfold handleResponse
  split at h
  next data herror hdata =>
    rw [herror, hdata]
    cases hd : decode data with
    | error e =>
      rw [hd] at h
      cases h
    | ok b =>
      rw [hd] at h
      cases h
      simp only [hd, List.nil_append]
  · cases h

end PracticeApps.Network
