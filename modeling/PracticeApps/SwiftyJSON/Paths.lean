import PracticeApps.SwiftyJSON.JSON

/-!
# Paths

Reading a path with errors that are carried along is reading it with errors
that stop; and setting a path changes what it leads to and nothing beside it.
-/

namespace PracticeApps.SwiftyJSON

/-! ### Objects -/

def typeOf : Object → JSONType
  | .number _ => .number
  | .bool _ => .bool
  | .string _ => .string
  | .null => .null
  | .array _ => .array
  | .dictionary _ => .dictionary
  | .json _ => .unknown
  | .data _ => .unknown
  | .other => .unknown

def check (v : Object) : Except SwiftyJSONError Object :=
  if typeOf v = .unknown then .error .unsupportedType else .ok v

theorem check_eq_ok {v : Object} : check v = .ok v ↔ typeOf v ≠ .unknown := by
  unfold check
  by_cases h : typeOf v = .unknown <;> simp [h]

theorem check_eq {u o : Object} (h : check u = .ok o) : u = o := by
  unfold check at h
  split at h
  · cases h
  · cases h
    rfl

def Unwrapped (v : Object) : Prop := unwrap v = v

/-- What a json stands for: an object, or an error. -/
def Shows (j : JSON) : Except SwiftyJSONError Object → Prop
  | .ok v => j.error = none ∧ j.type = typeOf v ∧ j.object = v ∧ Unwrapped v
  | .error error => j.error = some error ∧ j.object = .null ∧
      j.type ≠ .array ∧ j.type ≠ .dictionary

theorem unwrapped_unwrap (v : Object) : Unwrapped (unwrap v) := unwrap_unwrap v

mutual

theorem Plain.unwrapped : (o : Object) → Plain o → Unwrapped o
  | .array elements, h => by
    simp only [Plain] at h
    simp only [Unwrapped, unwrap, PlainElements.unwrapped elements h]
  | .dictionary entries, h => by
    simp only [Plain] at h
    simp only [Unwrapped, unwrap, PlainEntries.unwrapped entries h.1]
  | .number _, _ => by simp only [Unwrapped, unwrap]
  | .bool _, _ => by simp only [Unwrapped, unwrap]
  | .string _, _ => by simp only [Unwrapped, unwrap]
  | .null, _ => by simp only [Unwrapped, unwrap]

theorem PlainElements.unwrapped :
    (elements : List Object) → PlainElements elements → unwrapElements elements = elements
  | [], _ => rfl
  | object :: elements, h => by
    simp only [PlainElements] at h
    have hobject : unwrap object = object := Plain.unwrapped object h.1
    simp only [unwrapElements, hobject, PlainElements.unwrapped elements h.2]

theorem PlainEntries.unwrapped :
    (entries : List (String × Object)) → PlainEntries entries → unwrapEntries entries = entries
  | [], _ => rfl
  | (key, object) :: entries, h => by
    simp only [PlainEntries] at h
    have hobject : unwrap object = object := Plain.unwrapped object h.1
    simp only [unwrapEntries, hobject, PlainEntries.unwrapped entries h.2]

end

theorem element_unwrapElements (elements : List Object) (index : ℤ) :
    JSON.element (unwrapElements elements) index = (JSON.element elements index).map unwrap := by
  have hget : ∀ (es : List Object) (i : ℕ), (unwrapElements es)[i]? = es[i]?.map unwrap := by
    intro es
    induction es with
    | nil => simp [unwrapElements]
    | cons e es ih => intro i; cases i <;> simp [unwrapElements, ih]
  unfold JSON.element
  split
  · rfl
  · exact hget elements index.toNat

theorem lookup_unwrapEntries (entries : List (String × Object)) (key : String) :
    (unwrapEntries entries).lookup key = (entries.lookup key).map unwrap := by
  induction entries with
  | nil => rfl
  | cons entry entries ih =>
    obtain ⟨k, v⟩ := entry
    simp only [unwrapEntries, List.lookup_cons]
    split <;> simp [ih]

theorem unwrapped_element {elements : List Object} (h : Unwrapped (.array elements)) {index : ℤ}
    {v : Object} (hv : JSON.element elements index = some v) : Unwrapped v := by
  have helements : unwrapElements elements = elements := by
    simpa only [Unwrapped, unwrap, Object.array.injEq] using h
  have hmap := element_unwrapElements elements index
  rw [helements, hv] at hmap
  exact (Option.some.inj hmap).symm

theorem unwrapped_entry {entries : List (String × Object)} (h : Unwrapped (.dictionary entries))
    {key : String} {v : Object} (hv : entries.lookup key = some v) : Unwrapped v := by
  have hentries : unwrapEntries entries = entries := by
    simpa only [Unwrapped, unwrap, Object.dictionary.injEq] using h
  have hmap := lookup_unwrapEntries entries key
  rw [hentries, hv] at hmap
  exact (Option.some.inj hmap).symm

/- `unwrap` leaves no json at the top. -/
theorem unwrap_ne_json (v o : Object) : unwrap v ≠ .json o := by
  intro h
  have hsame := unwrap_unwrap v
  rw [h, unwrap] at hsame
  have hsize := sizeOf_unwrap o
  rw [hsame, Object.json.sizeOf_spec] at hsize
  omega

namespace JSON
variable {j : JSON} {r : Except SwiftyJSONError Object}

theorem shows_setObject (j : JSON) {w : Object} (h : Unwrapped w) (hknown : typeOf w ≠ .unknown) :
    Shows (j.setObject w) (.ok w) := by
  have hw : unwrap w = w := h
  unfold setObject
  rw [hw]
  cases w <;> simp_all [Shows, typeOf, object]

theorem shows_known {v : Object} (h : Shows j (.ok v)) : typeOf v ≠ .unknown := by
  obtain ⟨-, htype, hobject, -⟩ := h
  intro hunknown
  rw [hunknown] at htype
  simp only [object, htype] at hobject
  rw [← hobject] at hunknown
  cases hunknown

theorem shows_fresh {v : Object} (h : Unwrapped v) : Shows (fresh.setObject v) (check v) := by
  unfold check
  by_cases hknown : typeOf v = .unknown
  · have hv : unwrap v = v := h
    have hnot := unwrap_ne_json
    cases v <;> simp_all [Shows, typeOf, setObject, object]
  · rw [if_neg hknown]
    exact shows_setObject fresh h hknown

end JSON

/-! ### Data -/

mutual

theorem hasData_unwrap : (o : Object) → hasData (unwrap o) = hasData o
  | .json object => by simp only [unwrap, hasData, hasData_unwrap object]
  | .array elements => by simp only [unwrap, hasData, elementsHaveData_unwrap elements]
  | .dictionary entries => by simp only [unwrap, hasData, entriesHaveData_unwrap entries]
  | .number _ => by simp only [unwrap]
  | .bool _ => by simp only [unwrap]
  | .string _ => by simp only [unwrap]
  | .null => by simp only [unwrap]
  | .data _ => by simp only [unwrap]
  | .other => by simp only [unwrap]

theorem elementsHaveData_unwrap :
    (elements : List Object) → elementsHaveData (unwrapElements elements) = elementsHaveData elements
  | [] => rfl
  | object :: elements => by
    simp only [unwrapElements, elementsHaveData, hasData_unwrap object,
      elementsHaveData_unwrap elements]

theorem entriesHaveData_unwrap : (entries : List (String × Object)) →
    entriesHaveData (unwrapEntries entries) = entriesHaveData entries
  | [] => rfl
  | (key, object) :: entries => by
    simp only [unwrapEntries, entriesHaveData, hasData_unwrap object,
      entriesHaveData_unwrap entries]

end

theorem noData_element {elements : List Object} {index : ℤ} {o : Object}
    (h : hasData (.array elements) = false) (ho : JSON.element elements index = some o) :
    hasData o = false := by
  have hget : ∀ (es : List Object) (i : ℕ), elementsHaveData es = false → es[i]? = some o →
      hasData o = false := by
    intro es
    induction es with
    | nil => simp
    | cons e es ih =>
      intro i hes hi
      rw [elementsHaveData, Bool.or_eq_false_iff] at hes
      cases i with
      | zero =>
        cases hi
        exact hes.1
      | succ i => exact ih i hes.2 (by simpa using hi)
  unfold JSON.element at ho
  split at ho
  · cases ho
  · exact hget elements index.toNat h ho

theorem noData_lookup {entries : List (String × Object)} {key : String} {o : Object}
    (h : hasData (.dictionary entries) = false) (ho : entries.lookup key = some o) :
    hasData o = false := by
  simp only [hasData] at h
  induction entries with
  | nil => cases ho
  | cons entry entries ih =>
    obtain ⟨k, v⟩ := entry
    rw [entriesHaveData, Bool.or_eq_false_iff] at h
    rw [List.lookup_cons] at ho
    split at ho
    · cases ho
      exact h.1
    · exact ih h.2 ho

/-! ### Replacing a part -/

def setChild : Object → JSONKey → Object → Object
  | .array elements, .index index, w =>
    if (JSON.element elements index).isSome then .array (elements.set index.toNat w)
    else .array elements
  | .dictionary entries, .key key, w => .dictionary (setEntry key w entries)
  | v, _, _ => v

/-- A place for a value: an element that exists, or any key of a dictionary. -/
def Settable : Object → JSONKey → Prop
  | .array elements, .index index => (JSON.element elements index).isSome
  | .dictionary _, .key _ => True
  | _, _ => False

theorem unwrapElements_set {elements : List Object} {w : Object} (h : Unwrapped w) (i : ℕ)
    (helements : unwrapElements elements = elements) :
    unwrapElements (elements.set i w) = elements.set i w := by
  induction elements generalizing i with
  | nil => rfl
  | cons e es ih =>
    simp only [unwrapElements, List.cons.injEq] at helements
    cases i with
    | zero => simp [unwrapElements, helements.2, show unwrap w = w from h]
    | succ i => simp [unwrapElements, helements.1, ih i helements.2]

theorem unwrapEntries_setEntry {entries : List (String × Object)} {w : Object} (h : Unwrapped w)
    (key : String) (hentries : unwrapEntries entries = entries) :
    unwrapEntries (setEntry key w entries) = setEntry key w entries := by
  induction entries with
  | nil => simp [setEntry, unwrapEntries, show unwrap w = w from h]
  | cons entry entries ih =>
    obtain ⟨k, v⟩ := entry
    simp only [unwrapEntries, List.cons.injEq, Prod.mk.injEq, true_and] at hentries
    unfold setEntry
    split
    · simp [unwrapEntries, hentries.2, show unwrap w = w from h]
    · simp [unwrapEntries, hentries.1, ih hentries.2]

theorem unwrapped_setChild {v w : Object} (hv : Unwrapped v) (hw : Unwrapped w) (k : JSONKey) :
    Unwrapped (setChild v k w) := by
  cases v with
  | array elements =>
    have helements : unwrapElements elements = elements := by
      simpa only [Unwrapped, unwrap, Object.array.injEq] using hv
    cases k with
    | key key => exact hv
    | index index =>
      simp only [setChild]
      split
      · simp only [Unwrapped, unwrap, unwrapElements_set hw _ helements]
      · exact hv
  | dictionary entries =>
    have hentries : unwrapEntries entries = entries := by
      simpa only [Unwrapped, unwrap, Object.dictionary.injEq] using hv
    cases k with
    | key key => simp only [setChild, Unwrapped, unwrap, unwrapEntries_setEntry hw key hentries]
    | index index => exact hv
  | _ => exact hv

theorem typeOf_setChild (v w : Object) (k : JSONKey) : typeOf (setChild v k w) = typeOf v := by
  unfold setChild
  split
  · split <;> rfl
  · rfl
  · rfl

theorem lookup_entry (k k' : String) (v : Object) (entries : List (String × Object)) :
    ((k', v) :: entries).lookup k = if k = k' then some v else entries.lookup k := by
  by_cases hk : k = k'
  · simp [hk]
  · have hbeq : (k == k') = false := beq_false_of_ne hk
    simp [List.lookup_cons, hbeq, hk]

theorem lookup_setEntry (key : String) (w : Object) (entries : List (String × Object)) (k : String) :
    (setEntry key w entries).lookup k = if k = key then some w else entries.lookup k := by
  induction entries with
  | nil => simp [setEntry, lookup_entry]
  | cons entry entries ih =>
    obtain ⟨k', v⟩ := entry
    unfold setEntry
    by_cases hk' : k' = key
    · by_cases hk : k = key <;> simp [lookup_entry, hk', hk]
    · by_cases hk : k = k' <;> simp [lookup_entry, hk', hk, ih]

theorem element_set {elements : List Object} {index : ℤ} (w : Object)
    (h : (JSON.element elements index).isSome) (i : ℤ) :
    JSON.element (elements.set index.toNat w) i =
      if i = index then some w else JSON.element elements i := by
  unfold JSON.element at h ⊢
  by_cases hindex : index < 0
  · simp [hindex] at h
  · have hlength : index.toNat < elements.length := by simpa [hindex] using h
    by_cases hi : i < 0
    · have hne : i ≠ index := by omega
      simp [hi, hne]
    · by_cases hsame : i = index
      · simp [hsame, hindex, hlength]
      · have hne : index.toNat ≠ i.toNat := by omega
        simp [hi, hsame, hne]

theorem setEntry_self {entries : List (String × Object)} {key : String} {o : Object}
    (h : entries.lookup key = some o) : setEntry key o entries = entries := by
  induction entries with
  | nil => cases h
  | cons entry entries ih =>
    obtain ⟨k, v⟩ := entry
    rw [lookup_entry] at h
    unfold setEntry
    by_cases hk : key = k
    · simp_all
    · rw [if_neg hk] at h
      simp [Ne.symm hk, ih h]

theorem setChild_of_not_settable {v : Object} {k : JSONKey} (h : ¬ Settable v k) (w : Object) :
    setChild v k w = v := by
  cases v with
  | array elements =>
    cases k with
    | index index => exact if_neg h
    | key key => rfl
  | dictionary entries =>
    cases k with
    | index index => rfl
    | key key => exact absurd trivial h
  | _ => rfl

namespace JSON
variable {j new : JSON} {r : Except SwiftyJSONError Object} {v w : Object}

theorem shows_setSub (hj : Shows j (.ok v)) (hnew : Shows new (.ok w)) (k : JSONKey) :
    Shows (j.setSub k new) (.ok (setChild v k w)) := by
  obtain ⟨herror, htype, hobject, hv⟩ := hj
  obtain ⟨herror', -, hobject', hw⟩ := hnew
  have hunwrapped := unwrapped_setChild hv hw k
  have htypeOf := typeOf_setChild v w k
  cases k with
  | index index =>
    cases v with
    | array elements =>
      have hraw : j.rawArray = elements := by simpa [object, htype, typeOf] using hobject
      by_cases hin : (element elements index).isSome
      · simp_all [Shows, setSub, setIndex, typeOf, setChild, object]
      · simp_all [Shows, setSub, setIndex, typeOf, setChild, object]
    | _ => simp_all [Shows, setSub, setIndex, typeOf, setChild]
  | key key =>
    cases v with
    | dictionary entries =>
      have hraw : j.rawDictionary = entries := by simpa [object, htype, typeOf] using hobject
      simp_all [Shows, setSub, setKey, typeOf, setChild, object]
    | _ => simp_all [Shows, setSub, setKey, typeOf, setChild]

/- A json with an error is not put anywhere. -/
theorem setSub_error {error : SwiftyJSONError} (h : new.error = some error) (j : JSON)
    (k : JSONKey) : j.setSub k new = j := by
  cases k <;> simp [setSub, setIndex, setKey, h]

/- And nothing is put into one. -/
theorem setSub_of_error {error : SwiftyJSONError} (h : Shows j (.error error)) (k : JSONKey)
    (new : JSON) : j.setSub k new = j := by
  obtain ⟨-, -, harray, hdictionary⟩ := h
  cases k <;> simp [setSub, setIndex, setKey, harray, hdictionary]

end JSON

/-! ### Reading with errors that stop -/

variable [JSONSerialization]

/-- One step into an object. -/
def child : Object → JSONKey → Except SwiftyJSONError Object
  | .array elements, .index index =>
    match JSON.element elements index with
    | some object => check (JSON.load object)
    | none => .error .indexOutOfBounds
  | .dictionary entries, .key key =>
    match entries.lookup key with
    | some object => check (JSON.load object)
    | none => .error .notExist
  | _, _ => .error .wrongType

/-- The first step that fails decides. -/
def find (v : Object) : List JSONKey → Except SwiftyJSONError Object
  | [] => .ok v
  | k :: ks =>
    match child v k with
    | .ok object => find object ks
    | .error error => .error error

namespace JSON
variable {j : JSON} {r : Except SwiftyJSONError Object}

theorem unwrapped_load {v : Object} (h : Unwrapped v) : Unwrapped (load v) := by
  cases v with
  | data bytes =>
    cases hparsed : JSONSerialization.jsonObject bytes with
    | none => simp only [load, hparsed, Option.getD_none, Unwrapped, unwrap]
    | some parsed =>
      simp only [load, hparsed, Option.getD_some]
      exact Plain.unwrapped parsed (JSONSerialization.plain bytes parsed hparsed)
  | _ => exact h

theorem shows_ofObject {v : Object} (h : Unwrapped v) : Shows (ofObject v) (check (load v)) :=
  shows_fresh (unwrapped_load h)

theorem load_of_noData {v : Object} (h : hasData v = false) : load v = v := by
  cases v with
  | data bytes => cases h
  | _ => rfl

/- What is known is no data. -/
theorem load_of_check {v : Object} (h : check v = .ok v) : load v = v := by
  cases v with
  | data bytes => cases h
  | _ => rfl

theorem shows_failed (error : SwiftyJSONError) : Shows (failed error) (.error error) := by
  simp [Shows, failed, null, ofObject, load, setObject, unwrap, object]

/-- One subscript is one step. -/
theorem shows_sub (h : Shows j r) (k : JSONKey) : Shows (j.sub k) (r.bind fun v => child v k) := by
  cases r with
  | error error =>
    obtain ⟨herror, -, harray, hdictionary⟩ := h
    cases k with
    | index index =>
      have hsub : j.sub (.index index) = failed error := by simp [sub, subIndex, harray, herror]
      rw [hsub]
      exact shows_failed error
    | key key =>
      have hsub : j.sub (.key key) = failed error := by simp [sub, subKey, hdictionary, herror]
      rw [hsub]
      exact shows_failed error
  | ok v =>
    obtain ⟨herror, htype, hobject, hunwrapped⟩ := h
    show Shows (j.sub k) (child v k)
    cases k with
    | index index =>
      cases v with
      | array elements =>
        have hraw : j.rawArray = elements := by simpa [object, htype, typeOf] using hobject
        simp only [sub, subIndex, htype, typeOf, hraw, child]
        cases helement : element elements index with
        | none => simpa [helement] using shows_failed .indexOutOfBounds
        | some o => simpa [helement] using shows_ofObject (unwrapped_element hunwrapped helement)
      | _ => simpa [sub, subIndex, htype, typeOf, herror, child] using shows_failed .wrongType
    | key key =>
      cases v with
      | dictionary entries =>
        have hraw : j.rawDictionary = entries := by simpa [object, htype, typeOf] using hobject
        simp only [sub, subKey, htype, typeOf, hraw, child]
        cases hlookup : entries.lookup key with
        | none => simpa [hlookup] using shows_failed .notExist
        | some o => simpa [hlookup] using shows_ofObject (unwrapped_entry hunwrapped hlookup)
      | _ => simpa [sub, subKey, htype, typeOf, herror, child] using shows_failed .wrongType

theorem shows_path (h : Shows j r) (ks : List JSONKey) :
    Shows (j.path ks) (r.bind fun v => find v ks) := by
  induction ks generalizing j r with
  | nil => cases r <;> exact h
  | cons k ks ih =>
    have hrest := ih (shows_sub h k)
    cases r with
    | error error => exact hrest
    | ok v =>
      show Shows ((j.sub k).path ks) (find v (k :: ks))
      simp only [Except.bind, find] at hrest ⊢
      cases hchild : child v k <;> simpa [hchild] using hrest

end JSON

/-- What reading a path of an object gives. -/
def read (v : Object) (ks : List JSONKey) : Except SwiftyJSONError Object :=
  (check (unwrap (JSON.load v))).bind fun u => find u ks

theorem JSON.shows_unwrap (v : Object) : Shows (JSON.ofObject v) (check (unwrap (JSON.load v))) := by
  have hsame : JSON.ofObject v = JSON.fresh.setObject (unwrap (JSON.load v)) := by
    unfold JSON.ofObject JSON.setObject
    rw [unwrap_unwrap]
  rw [hsame]
  exact JSON.shows_fresh (unwrapped_unwrap _)

/-! ### Setting a path -/

def put (v : Object) : List JSONKey → Object → Object
  | [], _ => v
  | [k], w => setChild v k w
  | k :: k' :: ks, w =>
    match child v k with
    | .ok object => setChild v k (put object (k' :: ks) w)
    | .error _ => v

namespace JSON
variable {j new : JSON} {r : Except SwiftyJSONError Object} {v w : Object}

theorem setPath_of_error {error : SwiftyJSONError} (h : Shows j (.error error))
    (ks : List JSONKey) (new : JSON) : j.setPath ks new = j := by
  match ks with
  | [] => rfl
  | [k] => exact setSub_of_error h k _
  | k :: k' :: ks => exact setSub_of_error h k _

theorem shows_setPath (hj : Shows j (.ok v)) (hobject : new.object = w) (hw : Unwrapped w)
    (hknown : typeOf w ≠ .unknown) (ks : List JSONKey) :
    Shows (j.setPath ks new) (.ok (put v ks w)) := by
  induction ks generalizing j v with
  | nil => exact hj
  | cons k ks ih =>
    cases ks with
    | nil =>
      apply shows_setSub hj
      rw [hobject]
      exact shows_setObject _ hw hknown
    | cons k' ks =>
      have hsub := shows_sub hj k
      simp only [Except.bind] at hsub
      unfold setPath put
      cases hchild : child v k with
      | ok o =>
        rw [hchild] at hsub
        exact shows_setSub hj (ih hsub) k
      | error error =>
        rw [hchild] at hsub
        rw [setPath_of_error hsub, setSub_error hsub.1]
        exact hj

end JSON

/-! ### What is read after a path was set -/

theorem child_setChild {v w : Object} {k : JSONKey} (h : Settable v k) (hw : check w = .ok w) :
    child (setChild v k w) k = .ok w := by
  cases v with
  | array elements =>
    cases k with
    | index index =>
      have hin : (JSON.element elements index).isSome := h
      simp only [setChild, hin, if_true, child, element_set w hin, JSON.load_of_check hw, hw]
    | key key => exact h.elim
  | dictionary entries =>
    cases k with
    | index index => exact h.elim
    | key key => simp only [setChild, child, lookup_setEntry, if_true, JSON.load_of_check hw, hw]
  | _ => exact h.elim

theorem child_setChild_ne {v w : Object} {k k' : JSONKey} (hne : k' ≠ k) :
    child (setChild v k w) k' = child v k' := by
  cases v with
  | array elements =>
    cases k with
    | index index =>
      simp only [setChild]
      split
      · rename_i hin
        cases k' with
        | index i =>
          have hi : i ≠ index := fun h => hne (congrArg JSONKey.index h)
          simp only [child, element_set w hin, if_neg hi]
        | key key => rfl
      · rfl
    | key key => rfl
  | dictionary entries =>
    cases k with
    | index index => rfl
    | key key =>
      cases k' with
      | index i => rfl
      | key k' =>
        have hk' : k' ≠ key := fun h => hne (congrArg JSONKey.key h)
        simp only [setChild, child, lookup_setEntry, if_neg hk']
  | _ => rfl

theorem settable_of_child {v o : Object} {k : JSONKey} (h : child v k = .ok o) : Settable v k := by
  cases v with
  | array elements =>
    cases k with
    | index index => cases helement : JSON.element elements index <;> simp_all [child, Settable]
    | key key => cases h
  | dictionary entries =>
    cases k with
    | index index => cases h
    | key key => trivial
  | _ => cases h

theorem check_of_child {v o : Object} {k : JSONKey} (h : child v k = .ok o) : check o = .ok o := by
  have hcheck : ∀ u, check u = .ok o → check o = .ok o := by
    intro u hu
    unfold check at hu ⊢
    split at hu
    · cases hu
    · rename_i hknown
      cases hu
      rw [if_neg hknown]
  cases v with
  | array elements =>
    cases k with
    | index index =>
      simp only [child] at h
      split at h
      · exact hcheck _ h
      · cases h
    | key key => cases h
  | dictionary entries =>
    cases k with
    | index index => cases h
    | key key =>
      simp only [child] at h
      split at h
      · exact hcheck _ h
      · cases h
  | _ => cases h

theorem typeOf_put (v w : Object) (ks : List JSONKey) : typeOf (put v ks w) = typeOf v := by
  match ks with
  | [] => rfl
  | [k] => exact typeOf_setChild v w k
  | k :: k' :: ks =>
    unfold put
    split
    · exact typeOf_setChild v _ k
    · rfl

theorem check_put {v : Object} (h : check v = .ok v) (w : Object) (ks : List JSONKey) :
    check (put v ks w) = .ok (put v ks w) := by
  rw [check_eq_ok, typeOf_put]
  exact check_eq_ok.mp h

/- What is put at the end of a path that is there. -/
theorem find_put {w : Object} (hw : check w = .ok w) {k : JSONKey} (p : List JSONKey) {v u : Object}
    (hp : find v p = .ok u) (hk : Settable u k) (q : List JSONKey) :
    find (put v (p ++ [k]) w) (p ++ k :: q) = find w q := by
  induction p generalizing v with
  | nil =>
    cases hp
    simp only [List.nil_append, put, find, child_setChild hk hw]
  | cons a p ih =>
    obtain ⟨b, rest, hsplit⟩ : ∃ b rest, p ++ [k] = b :: rest := by
      cases p <;> exact ⟨_, _, rfl⟩
    simp only [find] at hp
    cases hchild : child v a with
    | error error => simp [hchild] at hp
    | ok o =>
      simp only [hchild] at hp
      have hrest := ih hp
      rw [hsplit] at hrest
      have hknown : check (put o (b :: rest) w) = .ok (put o (b :: rest) w) := by
        exact check_put (check_of_child hchild) w _
      simp only [List.cons_append, hsplit, put, hchild, find,
        child_setChild (settable_of_child hchild) hknown, hrest]

/- What is beside the path. -/
theorem find_put_ne {a b : JSONKey} (hne : b ≠ a) (w : Object) (c p q : List JSONKey) (v : Object) :
    find (put v (c ++ a :: p) w) (c ++ b :: q) = find v (c ++ b :: q) := by
  induction c generalizing v with
  | nil =>
    cases p with
    | nil => simp only [List.nil_append, put, find, child_setChild_ne hne]
    | cons k p =>
      simp only [List.nil_append, put]
      cases child v a with
      | error error => rfl
      | ok o => simp only [find, child_setChild_ne hne]
  | cons d c ih =>
    obtain ⟨k, rest, hsplit⟩ : ∃ k rest, c ++ a :: p = k :: rest := by
      cases c <;> exact ⟨_, _, rfl⟩
    have hrest := ih
    rw [hsplit] at hrest
    simp only [List.cons_append, hsplit, put]
    cases hchild : child v d with
    | error error => rfl
    | ok o =>
      have hknown := check_put (check_of_child hchild) w (k :: rest)
      simp only [find, child_setChild (settable_of_child hchild) hknown, hrest, hchild]

theorem noData_child {v o : Object} {k : JSONKey} (hv : hasData v = false)
    (h : child v k = .ok o) : hasData o = false := by
  cases v with
  | array elements =>
    cases k with
    | index index =>
      cases helement : JSON.element elements index with
      | none => simp [child, helement] at h
      | some u =>
        have hu := noData_element hv helement
        simp only [child, helement, JSON.load_of_noData hu] at h
        rw [← check_eq h]
        exact hu
    | key key => cases h
  | dictionary entries =>
    cases k with
    | index index => cases h
    | key key =>
      cases hlookup : entries.lookup key with
      | none => simp [child, hlookup] at h
      | some u =>
        have hu := noData_lookup hv hlookup
        simp only [child, hlookup, JSON.load_of_noData hu] at h
        rw [← check_eq h]
        exact hu
  | _ => cases h

theorem setChild_child {v o : Object} {k : JSONKey} (hv : hasData v = false)
    (h : child v k = .ok o) : setChild v k o = v := by
  cases v with
  | array elements =>
    cases k with
    | index index =>
      cases helement : JSON.element elements index with
      | none => simp [child, helement] at h
      | some u =>
        simp only [child, helement, JSON.load_of_noData (noData_element hv helement)] at h
        have hu := check_eq h
        subst hu
        simp only [setChild, helement, Option.isSome_some, if_true, Object.array.injEq]
        unfold JSON.element at helement
        split at helement
        · cases helement
        · obtain ⟨hlt, hget⟩ := List.getElem?_eq_some_iff.mp helement
          rw [← hget]
          exact List.set_getElem_self hlt
    | key key => rfl
  | dictionary entries =>
    cases k with
    | index index => rfl
    | key key =>
      cases hlookup : entries.lookup key with
      | none => simp [child, hlookup] at h
      | some u =>
        simp only [child, hlookup, JSON.load_of_noData (noData_lookup hv hlookup)] at h
        have hu := check_eq h
        subst hu
        simp only [setChild, setEntry_self hlookup]
  | _ => rfl

/- A path that leads nowhere. -/
theorem put_fails {k : JSONKey} (w : Object) (p : List JSONKey) {v : Object}
    (hv : hasData v = false) (h : ∀ u, find v p = .ok u → ¬ Settable u k) :
    put v (p ++ [k]) w = v := by
  induction p generalizing v with
  | nil => exact setChild_of_not_settable (h v rfl) w
  | cons a p ih =>
    obtain ⟨b, rest, hsplit⟩ : ∃ b rest, p ++ [k] = b :: rest := by
      cases p <;> exact ⟨_, _, rfl⟩
    simp only [List.cons_append, hsplit, put]
    cases hchild : child v a with
    | error error => rfl
    | ok o =>
      have hrest : put o (p ++ [k]) w = o :=
        ih (noData_child hv hchild) fun u hu => h u (by simpa [find, hchild] using hu)
      rw [hsplit] at hrest
      dsimp only
      rw [hrest]
      exact setChild_child hv hchild

/-! ### Paths of a json -/

/- What is stored for an object; one of no supported type is stored as a null. -/
def stored (w : Object) : Object := (JSON.ofObject w).object

namespace JSON

theorem stored_known (w : Object) : Unwrapped (stored w) ∧ typeOf (stored w) ≠ .unknown := by
  have h := shows_unwrap w
  unfold stored
  cases hcheck : check (unwrap (load w)) with
  | ok u =>
    rw [hcheck] at h
    have hsame := check_eq hcheck
    rw [h.2.2.1, ← hsame]
    rw [← hsame] at hcheck
    exact ⟨unwrapped_unwrap _, check_eq_ok.mp hcheck⟩
  | error error =>
    rw [hcheck] at h
    rw [h.2.1]
    exact ⟨by simp only [Unwrapped, unwrap], by decide⟩

end JSON

end PracticeApps.SwiftyJSON
