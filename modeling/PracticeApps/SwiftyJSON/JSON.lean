import Mathlib.Data.Int.Basic
import Mathlib.Data.List.Basic

/-!
# SwiftyJSON.swift

A `JSON` has a field for each kind of value and says by its `type` which one
counts. Subscripts never fail: what is not there is a null with an error. Data
is parsed where a `JSON` is made of it.
-/

namespace PracticeApps.SwiftyJSON

inductive SwiftyJSONError where
  | unsupportedType
  | indexOutOfBounds
  | elementTooDeep
  | wrongType
  | notExist
  | invalidJSON
  deriving DecidableEq, Repr

def SwiftyJSONError.errorCode : SwiftyJSONError → ℕ
  | unsupportedType => 999
  | indexOutOfBounds => 900
  | elementTooDeep => 902
  | wrongType => 901
  | notExist => 500
  | invalidJSON => 490

/- `Type` -/
inductive JSONType where
  | number
  | string
  | bool
  | array
  | dictionary
  | null
  | unknown
  deriving DecidableEq, Repr

/- What `Any` can be: a number is known by its `stringValue`, a `JSON` by its `object`, `data` by
its bytes, and `other` is of no type that is supported. -/
inductive Object where
  | number (stringValue : String)
  | bool (value : Bool)
  | string (value : String)
  | null
  | array (elements : List Object)
  | dictionary (entries : List (String × Object))
  | json (object : Object)
  | data (bytes : List UInt8)
  | other

mutual

def unwrap : Object → Object
  | .json object => unwrap object
  | .array elements => .array (unwrapElements elements)
  | .dictionary entries => .dictionary (unwrapEntries entries)
  | .number stringValue => .number stringValue
  | .bool value => .bool value
  | .string value => .string value
  | .null => .null
  | .data bytes => .data bytes
  | .other => .other

def unwrapElements : List Object → List Object
  | [] => []
  | object :: elements => unwrap object :: unwrapElements elements

def unwrapEntries : List (String × Object) → List (String × Object)
  | [] => []
  | (key, object) :: entries => (key, unwrap object) :: unwrapEntries entries

end

mutual

/-- What parsing gives: dictionaries have each key once, and everything is supported. -/
def Plain : Object → Prop
  | .array elements => PlainElements elements
  | .dictionary entries => PlainEntries entries ∧ (entries.map Prod.fst).Nodup
  | .json _ => False
  | .data _ => False
  | .other => False
  | .number _ => True
  | .bool _ => True
  | .string _ => True
  | .null => True

def PlainElements : List Object → Prop
  | [] => True
  | object :: elements => Plain object ∧ PlainElements elements

def PlainEntries : List (String × Object) → Prop
  | [] => True
  | (_, object) :: entries => Plain object ∧ PlainEntries entries

end

mutual

/-- There is data somewhere in it. -/
def hasData : Object → Bool
  | .data _ => true
  | .json object => hasData object
  | .array elements => elementsHaveData elements
  | .dictionary entries => entriesHaveData entries
  | .number _ => false
  | .bool _ => false
  | .string _ => false
  | .null => false
  | .other => false

def elementsHaveData : List Object → Bool
  | [] => false
  | object :: elements => hasData object || elementsHaveData elements

def entriesHaveData : List (String × Object) → Bool
  | [] => false
  | (_, object) :: entries => hasData object || entriesHaveData entries

end

/- `none` is an error that it throws. -/
class JSONSerialization where
  jsonObject : List UInt8 → Option Object
  plain : ∀ data object, jsonObject data = some object → Plain object

/- `rawDictionary[key] = value` -/
def setEntry (key : String) (value : Object) : List (String × Object) → List (String × Object)
  | [] => [(key, value)]
  | (k, object) :: entries =>
    if k = key then (k, value) :: entries else (k, object) :: setEntry key value entries

structure JSON where
  rawArray : List Object
  rawDictionary : List (String × Object)
  rawString : String
  rawNumber : String
  rawBool : Bool
  type : JSONType
  error : Option SwiftyJSONError

inductive JSONKey where
  | index (index : ℤ)
  | key (key : String)
  deriving DecidableEq, Repr

namespace JSON

def object (j : JSON) : Object :=
  match j.type with
  | .array => .array j.rawArray
  | .dictionary => .dictionary j.rawDictionary
  | .string => .string j.rawString
  | .number => .number j.rawNumber
  | .bool => .bool j.rawBool
  | .null => .null
  | .unknown => .null

def setObject (j : JSON) (newValue : Object) : JSON :=
  match unwrap newValue with
  | .number stringValue => { j with error := none, type := .number, rawNumber := stringValue }
  | .bool value => { j with error := none, type := .bool, rawBool := value }
  | .string value => { j with error := none, type := .string, rawString := value }
  | .null => { j with error := none, type := .null }
  | .array elements => { j with error := none, type := .array, rawArray := elements }
  | .dictionary entries => { j with error := none, type := .dictionary, rawDictionary := entries }
  | .json _ => { j with error := some .unsupportedType, type := .unknown }
  | .data _ => { j with error := some .unsupportedType, type := .unknown }
  | .other => { j with error := some .unsupportedType, type := .unknown }

/- The fields before `init` sets the object. -/
def fresh : JSON where
  rawArray := []
  rawDictionary := []
  rawString := ""
  rawNumber := "0"
  rawBool := false
  type := .null
  error := none

variable [JSONSerialization]

/- Data is what it parses to, or a null. -/
def load : Object → Object
  | .data bytes => (JSONSerialization.jsonObject bytes).getD .null
  | object => object

/- `JSON(object)` -/
def ofObject (object : Object) : JSON := fresh.setObject (load object)

def null : JSON := ofObject .null

/- A null json with an error. -/
def failed (error : SwiftyJSONError) : JSON := { null with error := some error }

/- `rawArray[index]`, if `rawArray.indices.contains(index)`. -/
def element (elements : List Object) (index : ℤ) : Option Object :=
  if index < 0 then none else elements[index.toNat]?

def subIndex (j : JSON) (index : ℤ) : JSON :=
  if j.type ≠ .array then failed (j.error.getD .wrongType)
  else
    match element j.rawArray index with
    | some object => ofObject object
    | none => failed .indexOutOfBounds

def setIndex (j : JSON) (index : ℤ) (newValue : JSON) : JSON :=
  if j.type = .array ∧ (element j.rawArray index).isSome ∧ newValue.error = none then
    { j with rawArray := j.rawArray.set index.toNat newValue.object }
  else j

def subKey (j : JSON) (key : String) : JSON :=
  if j.type = .dictionary then
    match j.rawDictionary.lookup key with
    | some object => ofObject object
    | none => failed .notExist
  else failed (j.error.getD .wrongType)

def setKey (j : JSON) (key : String) (newValue : JSON) : JSON :=
  if j.type = .dictionary ∧ newValue.error = none then
    { j with rawDictionary := setEntry key newValue.object j.rawDictionary }
  else j

/- `subscript(sub:)` -/
def sub (j : JSON) : JSONKey → JSON
  | .index index => j.subIndex index
  | .key key => j.subKey key

def setSub (j : JSON) (k : JSONKey) (newValue : JSON) : JSON :=
  match k with
  | .index index => j.setIndex index newValue
  | .key key => j.setKey key newValue

/- `subscript(path:)` -/
def path (j : JSON) (ks : List JSONKey) : JSON := ks.foldl sub j

/- The setter sets the `object` of the last json on the path, and puts the others back. -/
def setPath (j : JSON) : List JSONKey → JSON → JSON
  | [], _ => j
  | [k], newValue => j.setSub k ((j.sub k).setObject newValue.object)
  | k :: k' :: ks, newValue => j.setSub k ((j.sub k).setPath (k' :: ks) newValue)

def arrayValue (j : JSON) : List JSON :=
  match j.type with
  | .array => j.rawArray.map ofObject
  | _ => []

def stringValue (j : JSON) : String :=
  match j.type with
  | .string => j.rawString
  | .number => j.rawNumber
  | .bool => if j.rawBool then "true" else "false"
  | _ => ""

/- `exists()` -/
def isPresent (j : JSON) : Bool :=
  match j.error with
  | some error => !(decide (400 ≤ error.errorCode) && decide (error.errorCode ≤ 1000))
  | none => true

end JSON

/-! ### Unwrapped objects -/

mutual

theorem unwrap_unwrap : (o : Object) → unwrap (unwrap o) = unwrap o
  | .json object => by simp only [unwrap, unwrap_unwrap object]
  | .array elements => by simp only [unwrap, unwrapElements_unwrap elements]
  | .dictionary entries => by simp only [unwrap, unwrapEntries_unwrap entries]
  | .number _ => by simp only [unwrap]
  | .bool _ => by simp only [unwrap]
  | .string _ => by simp only [unwrap]
  | .null => by simp only [unwrap]
  | .data _ => by simp only [unwrap]
  | .other => by simp only [unwrap]

theorem unwrapElements_unwrap :
    (elements : List Object) → unwrapElements (unwrapElements elements) = unwrapElements elements
  | [] => rfl
  | object :: elements => by
    simp only [unwrapElements, unwrap_unwrap object, unwrapElements_unwrap elements]

theorem unwrapEntries_unwrap :
    (entries : List (String × Object)) → unwrapEntries (unwrapEntries entries) = unwrapEntries entries
  | [] => rfl
  | (key, object) :: entries => by
    simp only [unwrapEntries, unwrap_unwrap object, unwrapEntries_unwrap entries]

end

mutual

theorem sizeOf_unwrap : (o : Object) → sizeOf (unwrap o) ≤ sizeOf o
  | .json object => by
    have h := sizeOf_unwrap object
    simp only [unwrap, Object.json.sizeOf_spec]
    omega
  | .array elements => by
    have h := sizeOf_unwrapElements elements
    simp only [unwrap, Object.array.sizeOf_spec]
    omega
  | .dictionary entries => by
    have h := sizeOf_unwrapEntries entries
    simp only [unwrap, Object.dictionary.sizeOf_spec]
    omega
  | .number _ => by simp only [unwrap, Nat.le_refl]
  | .bool _ => by simp only [unwrap, Nat.le_refl]
  | .string _ => by simp only [unwrap, Nat.le_refl]
  | .null => by simp only [unwrap, Nat.le_refl]
  | .data _ => by simp only [unwrap, Nat.le_refl]
  | .other => by simp only [unwrap, Nat.le_refl]

theorem sizeOf_unwrapElements :
    (elements : List Object) → sizeOf (unwrapElements elements) ≤ sizeOf elements
  | [] => Nat.le_refl _
  | object :: elements => by
    have h := sizeOf_unwrap object
    have hs := sizeOf_unwrapElements elements
    simp only [unwrapElements, List.cons.sizeOf_spec]
    omega

theorem sizeOf_unwrapEntries :
    (entries : List (String × Object)) → sizeOf (unwrapEntries entries) ≤ sizeOf entries
  | [] => Nat.le_refl _
  | (key, object) :: entries => by
    have h := sizeOf_unwrap object
    have hs := sizeOf_unwrapEntries entries
    simp only [unwrapEntries, List.cons.sizeOf_spec, Prod.mk.sizeOf_spec]
    omega

end

end PracticeApps.SwiftyJSON
