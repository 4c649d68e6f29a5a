import Mathlib.Data.List.Sort
import PracticeApps.Library.PercentEncoding

/-!
# ParameterEncoding.swift

The query of a request, or its body. Strings are their UTF-8 bytes, and the
order of keys is any order that sorting can use.
-/

namespace PracticeApps.WhatFlower
open PercentEncoding

def ascii (s : String) : Text := s.toList.map fun c => UInt8.ofNat c.toNat

/- `CharacterSet.urlQueryAllowed` -/
def urlQueryAllowed (c : UInt8) : Bool :=
  (65 ≤ c.toNat && c.toNat ≤ 90) || (97 ≤ c.toNat && c.toNat ≤ 122) ||
    (48 ≤ c.toNat && c.toNat ≤ 57) || c ∈ ascii "-._~!$&'()*+,;=:@/?"

inductive Destination where
  | methodDependent
  | queryString
  | httpBody
  deriving DecidableEq, Repr

inductive ArrayEncoding where
  | brackets
  | noBrackets
  deriving DecidableEq, Repr

def ArrayEncoding.encode (key : Text) : ArrayEncoding → Text
  | brackets => key ++ ascii "[]"
  | noBrackets => key

inductive BoolEncoding where
  | numeric
  | literal
  deriving DecidableEq, Repr

def BoolEncoding.encode (value : Bool) : BoolEncoding → Text
  | numeric => if value then ascii "1" else ascii "0"
  | literal => if value then ascii "true" else ascii "false"

/- `Any`: numbers and everything else by what interpolation gives. -/
inductive Value where
  | dictionary (entries : List (Text × Value))
  | array (elements : List Value)
  | bool (value : Bool)
  | other (text : Text)

inductive HTTPMethod where
  | options
  | get
  | head
  | post
  | put
  | patch
  | delete
  | trace
  | connect
  deriving DecidableEq, Repr

/- `HTTPMethod(rawValue:)` -/
def HTTPMethod.ofRaw : String → Option HTTPMethod
  | "OPTIONS" => some .options
  | "GET" => some .get
  | "HEAD" => some .head
  | "POST" => some .post
  | "PUT" => some .put
  | "PATCH" => some .patch
  | "DELETE" => some .delete
  | "TRACE" => some .trace
  | "CONNECT" => some .connect
  | _ => none

/- The query, and everything else. -/
structure URLComponents where
  rest : Text
  percentEncodedQuery : Option Text
  deriving DecidableEq

/- Its components, or a string that does not parse into components. -/
inductive URL where
  | parsed (components : URLComponents)
  | unparsed (string : Text)
  deriving DecidableEq

/- `URLComponents(url: url, resolvingAgainstBaseURL: false)` -/
def URL.urlComponents : URL → Option URLComponents
  | parsed components => some components
  | unparsed _ => none

structure URLRequest where
  url : Option URL
  httpMethod : Option String
  contentType : Option String
  httpBody : Option Text
  deriving DecidableEq

inductive AFError where
  | missingURL
  deriving DecidableEq, Repr

structure URLEncoding where
  destination : Destination
  arrayEncoding : ArrayEncoding
  boolEncoding : BoolEncoding
  deriving DecidableEq, Repr

namespace URLEncoding

def allowedCharacterSet (c : UInt8) : Bool :=
  urlQueryAllowed c && !(c ∈ ascii ":#[]@") && !(c ∈ ascii "!$&'()*+,;=")

def escape (string : Text) : Text := encode allowedCharacterSet string

def batchSize : ℕ := 50

/- Before iOS 8.3: batch by batch of the characters, each of which is some bytes. -/
def escapeInBatches (characters : List Text) : Text :=
  if characters = [] then []
  else encode allowedCharacterSet (characters.take batchSize).flatten ++
    escapeInBatches (characters.drop batchSize)
termination_by characters.length
decreasing_by
  rename_i hne
  have hpos := List.length_pos_iff.mpr hne
  rw [List.length_drop, batchSize]
  omega

mutual

def queryComponents (e : URLEncoding) (key : Text) : Value → List (Text × Text)
  | .dictionary entries => queryEntries e key entries
  | .array elements => queryElements e key elements
  | .bool value => [(escape key, escape (e.boolEncoding.encode value))]
  | .other text => [(escape key, escape text)]

def queryEntries (e : URLEncoding) (key : Text) : List (Text × Value) → List (Text × Text)
  | [] => []
  | (nestedKey, value) :: entries =>
    queryComponents e (key ++ ascii "[" ++ nestedKey ++ ascii "]") value ++
      queryEntries e key entries

def queryElements (e : URLEncoding) (key : Text) : List Value → List (Text × Text)
  | [] => []
  | value :: elements =>
    queryComponents e (e.arrayEncoding.encode key) value ++ queryElements e key elements

end

variable (le : Text → Text → Bool)

/- `parameters.keys.sorted(by: <)` -/
def sortedKeys (parameters : List (Text × Value)) : List Text :=
  (parameters.map Prod.fst).mergeSort le

def components (e : URLEncoding) (parameters : List (Text × Value)) : List (Text × Text) :=
  (sortedKeys le parameters).flatMap fun key =>
    match parameters.lookup key with
    | some value => queryComponents e key value
    | none => []

def query (e : URLEncoding) (parameters : List (Text × Value)) : Text :=
  [ampersand].intercalate ((e.components le parameters).map fun c => c.1 ++ equalsSign :: c.2)

def encodesParametersInURL (e : URLEncoding) (method : HTTPMethod) : Bool :=
  match e.destination with
  | .queryString => true
  | .httpBody => false
  | .methodDependent =>
    match method with
    | .get => true
    | .head => true
    | .delete => true
    | _ => false

def encodeBody (e : URLEncoding) (urlRequest : URLRequest) (parameters : List (Text × Value)) :
    URLRequest :=
  { urlRequest with
    contentType := some (urlRequest.contentType.getD
      "application/x-www-form-urlencoded; charset=utf-8")
    httpBody := some (e.query le parameters) }

def encodeURL (e : URLEncoding) (urlRequest : URLRequest) (parameters : List (Text × Value)) :
    Except AFError URLRequest :=
  match urlRequest.url with
  | none => .error .missingURL
  | some url =>
    match url.urlComponents with
    | none => .ok urlRequest
    | some urlComponents =>
      if parameters = [] then .ok urlRequest
      else
        let percentEncodedQuery := (match urlComponents.percentEncodedQuery with
          | some query => query ++ [ampersand]
          | none => []) ++ e.query le parameters
        let urlComponents :=
          { urlComponents with percentEncodedQuery := some percentEncodedQuery }
        .ok { urlRequest with url := some (.parsed urlComponents) }

def encode (e : URLEncoding) (urlRequest : URLRequest) (parameters : Option (List (Text × Value))) :
    Except AFError URLRequest :=
  match parameters with
  | none => .ok urlRequest
  | some parameters =>
    match HTTPMethod.ofRaw (urlRequest.httpMethod.getD "GET") with
    | some method =>
      if e.encodesParametersInURL method then e.encodeURL le urlRequest parameters
      else .ok (e.encodeBody le urlRequest parameters)
    | none => .ok (e.encodeBody le urlRequest parameters)

/-! ### What arrives -/

mutual

/-- The fields of a value before they are escaped. -/
def fields (e : URLEncoding) (key : Text) : Value → List (Text × Text)
  | .dictionary entries => fieldsOfEntries e key entries
  | .array elements => fieldsOfElements e key elements
  | .bool value => [(key, e.boolEncoding.encode value)]
  | .other text => [(key, text)]

def fieldsOfEntries (e : URLEncoding) (key : Text) : List (Text × Value) → List (Text × Text)
  | [] => []
  | (nestedKey, value) :: entries =>
    fields e (key ++ ascii "[" ++ nestedKey ++ ascii "]") value ++ fieldsOfEntries e key entries

def fieldsOfElements (e : URLEncoding) (key : Text) : List Value → List (Text × Text)
  | [] => []
  | value :: elements => fields e (e.arrayEncoding.encode key) value ++ fieldsOfElements e key elements

end

def escapeField (field : Text × Text) : Text × Text := (escape field.1, escape field.2)

mutual

theorem queryComponents_eq (e : URLEncoding) (key : Text) :
    (value : Value) → queryComponents e key value = (fields e key value).map escapeField
  | .dictionary entries => by simp only [queryComponents, fields, queryEntries_eq e key entries]
  | .array elements => by simp only [queryComponents, fields, queryElements_eq e key elements]
  | .bool value => by simp only [queryComponents, fields, escapeField, List.map_cons, List.map_nil]
  | .other text => by simp only [queryComponents, fields, escapeField, List.map_cons, List.map_nil]

theorem queryEntries_eq (e : URLEncoding) (key : Text) : (entries : List (Text × Value)) →
    queryEntries e key entries = (fieldsOfEntries e key entries).map escapeField
  | [] => rfl
  | (nestedKey, value) :: entries => by
    simp only [queryEntries, fieldsOfEntries, List.map_append, queryEntries_eq e key entries,
      queryComponents_eq e _ value]

theorem queryElements_eq (e : URLEncoding) (key : Text) : (elements : List Value) →
    queryElements e key elements = (fieldsOfElements e key elements).map escapeField
  | [] => rfl
  | value :: elements => by
    simp only [queryElements, fieldsOfElements, List.map_append, queryElements_eq e key elements,
      queryComponents_eq e _ value]

end

/-- The fields of all parameters, in the order of their keys. -/
def formFields (e : URLEncoding) (parameters : List (Text × Value)) : List (Text × Text) :=
  (sortedKeys le parameters).flatMap fun key =>
    match parameters.lookup key with
    | some value => fields e key value
    | none => []

theorem encodes_allowed : Encodes allowedCharacterSet where
  percent := by decide
  ampersand := by decide
  equalsSign := by decide
  plus := by decide

theorem query_eq (e : URLEncoding) (parameters : List (Text × Value)) :
    e.query le parameters = encodeForm allowedCharacterSet (e.formFields le parameters) := by
  have hcomponents : e.components le parameters = (e.formFields le parameters).map escapeField := by
    unfold components formFields
    rw [List.map_flatMap]
    apply List.flatMap_congr
    intro key _
    cases parameters.lookup key with
    | none => rfl
    | some value => exact queryComponents_eq e key value
  unfold query encodeForm
  rw [hcomponents, List.map_map]
  rfl

theorem escapeInBatches_eq (n : ℕ) (characters : List Text) (hn : characters.length = n) :
    escapeInBatches characters = escape characters.flatten := by
  induction n using Nat.strongRecOn generalizing characters with
  | ind n ih =>
    rw [escapeInBatches]
    by_cases hnil : characters = []
    · rw [if_pos hnil, hnil]
      rfl
    · have hpos := List.length_pos_iff.mpr hnil
      have hlength : (characters.drop batchSize).length < n := by
        rw [List.length_drop, batchSize]
        omega
      rw [if_neg hnil, ih _ hlength _ rfl]
      unfold escape
      rw [← encode_append, ← List.flatten_append, List.take_append_drop]

/-- The fields of a decoded form that was there before, with those of the parameters behind them. -/
def after (form : Option Text) (fields : List (Text × Text)) : Option (List (Text × Text)) :=
  match form with
  | none => some fields
  | some form => (decodeForm form).map fun before => before ++ fields

theorem lookup_of_nodup {parameters : List (Text × Value)} (h : (parameters.map Prod.fst).Nodup)
    {parameter : Text × Value} (hmem : parameter ∈ parameters) :
    parameters.lookup parameter.1 = some parameter.2 := by
  induction parameters with
  | nil => cases hmem
  | cons first parameters ih =>
    obtain ⟨hfresh, hrest⟩ := List.nodup_cons.mp h
    rcases List.mem_cons.mp hmem with rfl | hlater
    · rw [List.lookup_cons_self]
    · have hne : (parameter.1 == first.1) = false := by
        apply beq_false_of_ne
        intro hkey
        exact hfresh (List.mem_map.mpr ⟨parameter, hlater, hkey⟩)
      rw [List.lookup_cons, hne]
      exact ih hrest hlater

/- Every parameter is there, whatever the order of the keys. -/
theorem formFields_perm (e : URLEncoding) {parameters : List (Text × Value)}
    (h : (parameters.map Prod.fst).Nodup) : (e.formFields le parameters).Perm
      (parameters.flatMap fun parameter => fields e parameter.1 parameter.2) := by
  have hkeys : (sortedKeys le parameters).Perm (parameters.map Prod.fst) := List.mergeSort_perm _ _
  refine (hkeys.flatMap_right _).trans ?_
  rw [List.flatMap_map]
  apply List.Perm.of_eq
  apply List.flatMap_congr
  intro parameter hmem
  rw [lookup_of_nodup h hmem]

theorem decodeForm_query (e : URLEncoding) (parameters : List (Text × Value)) :
    decodeForm (e.query le parameters) = some (e.formFields le parameters) := by
  rw [query_eq, decodeForm_encodeForm encodes_allowed]

def inURL (e : URLEncoding) (urlRequest : URLRequest) : Bool :=
  (HTTPMethod.ofRaw (urlRequest.httpMethod.getD "GET")).any e.encodesParametersInURL

theorem encode_inURL {e : URLEncoding} {urlRequest : URLRequest} (h : e.inURL urlRequest = true)
    (parameters : List (Text × Value)) :
    e.encode le urlRequest (some parameters) = e.encodeURL le urlRequest parameters := by
  unfold inURL at h
  unfold encode
  cases hmethod : HTTPMethod.ofRaw (urlRequest.httpMethod.getD "GET") with
  | none => simp [hmethod] at h
  | some method =>
    rw [hmethod] at h
    exact if_pos h

theorem encode_notInURL {e : URLEncoding} {urlRequest : URLRequest} (h : e.inURL urlRequest = false)
    (parameters : List (Text × Value)) :
    e.encode le urlRequest (some parameters) = .ok (e.encodeBody le urlRequest parameters) := by
  unfold inURL at h
  unfold encode
  cases hmethod : HTTPMethod.ofRaw (urlRequest.httpMethod.getD "GET") with
  | none => rfl
  | some method =>
    rw [hmethod] at h
    exact if_neg (by rw [Option.any_some] at h; simp [h])

/- The query with the one that was there. -/
theorem encodeURL_decodes (e : URLEncoding) {urlRequest : URLRequest} {components : URLComponents}
    (h : urlRequest.url = some (.parsed components)) (parameters : List (Text × Value)) :
    ∃ query, e.encodeURL le urlRequest parameters = .ok { urlRequest with
        url := some (.parsed { components with percentEncodedQuery := query }) } ∧
      decodeForm (query.getD []) =
        after components.percentEncodedQuery (e.formFields le parameters) := by
  unfold encodeURL
  simp only [h, URL.urlComponents]
  by_cases hnil : parameters = []
  · rw [if_pos hnil, hnil]
    refine ⟨components.percentEncodedQuery, ?_, ?_⟩
    · rw [← h]
    · have hfields : e.formFields le [] = [] := by simp [formFields, sortedKeys]
      rw [hfields]
      cases components.percentEncodedQuery with
      | none => rfl
      | some form => cases hform : decodeForm form <;> simp [after, hform]
  · rw [if_neg hnil]
    refine ⟨_, rfl, ?_⟩
    rw [Option.getD_some]
    cases components.percentEncodedQuery with
    | none => exact decodeForm_query le e parameters
    | some form =>
      dsimp only
      rw [List.append_assoc, List.singleton_append, decodeForm_append, decodeForm_query]
      cases hform : decodeForm form <;> simp [after, hform]

end URLEncoding

end PracticeApps.WhatFlower
