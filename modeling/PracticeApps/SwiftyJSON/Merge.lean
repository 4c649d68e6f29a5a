import PracticeApps.SwiftyJSON.Paths

/-!
# Merging

`merge(with:)` of two parsed jsons, read path by path.
-/

namespace PracticeApps.SwiftyJSON

theorem sizeOf_lookup {entries : List (String × Object)} {key : String} {o : Object}
    (h : entries.lookup key = some o) : sizeOf o < sizeOf entries := by
  induction entries with
  | nil => cases h
  | cons entry entries ih =>
    obtain ⟨k, v⟩ := entry
    rw [lookup_entry] at h
    simp only [List.cons.sizeOf_spec, Prod.mk.sizeOf_spec]
    split at h
    · cases h
      omega
    · have hs := ih h
      omega

/-! ### Parsed objects -/

mutual

theorem Plain.noData : (o : Object) → Plain o → hasData o = false
  | .array elements, h => by
    simp only [Plain] at h
    simp only [hasData, PlainElements.noData elements h]
  | .dictionary entries, h => by
    simp only [Plain] at h
    simp only [hasData, PlainEntries.noData entries h.1]
  | .number _, _ => rfl
  | .bool _, _ => rfl
  | .string _, _ => rfl
  | .null, _ => rfl

theorem PlainElements.noData :
    (elements : List Object) → PlainElements elements → elementsHaveData elements = false
  | [], _ => rfl
  | object :: elements, h => by
    simp only [PlainElements] at h
    simp only [elementsHaveData, Plain.noData object h.1, PlainElements.noData elements h.2,
      Bool.or_self]

theorem PlainEntries.noData :
    (entries : List (String × Object)) → PlainEntries entries → entriesHaveData entries = false
  | [], _ => rfl
  | (key, object) :: entries, h => by
    simp only [PlainEntries] at h
    simp only [entriesHaveData, Plain.noData object h.1, PlainEntries.noData entries h.2,
      Bool.or_self]

end

theorem Plain.known {o : Object} (h : Plain o) : typeOf o ≠ .unknown := by
  cases o <;> simp_all [Plain, typeOf]

theorem PlainEntries.lookup {entries : List (String × Object)} (h : PlainEntries entries)
    {key : String} {o : Object} (ho : entries.lookup key = some o) : Plain o := by
  induction entries with
  | nil => cases ho
  | cons entry entries ih =>
    obtain ⟨k, v⟩ := entry
    rw [lookup_entry] at ho
    simp only [PlainEntries] at h
    split at ho
    · cases ho
      exact h.1
    · exact ih h.2 ho

theorem check_of_plain {d : List (String × Object)} (h : PlainEntries d) (key : String) (x : Object)
    (hx : d.lookup key = some x) : check x = .ok x :=
  check_eq_ok.mpr (h.lookup hx).known

theorem lookup_of_mem {entries : List (String × Object)} (h : (entries.map Prod.fst).Nodup)
    {entry : String × Object} (hentry : entry ∈ entries) :
    entries.lookup entry.1 = some entry.2 := by
  induction entries with
  | nil => cases hentry
  | cons first entries ih =>
    obtain ⟨k, v⟩ := first
    obtain ⟨hfresh, hrest⟩ := List.nodup_cons.mp h
    rw [lookup_entry]
    rcases List.mem_cons.mp hentry with rfl | hlater
    · simp
    · have hne : entry.1 ≠ k := by
        intro hk
        rw [← hk] at hfresh
        exact hfresh (List.mem_map.mpr ⟨entry, hlater, rfl⟩)
      rw [if_neg hne, ih hrest hlater]

theorem mem_keys {entries : List (String × Object)} {key : String} :
    key ∈ entries.map Prod.fst ↔ ∃ o, entries.lookup key = some o := by
  induction entries with
  | nil => simp
  | cons entry entries ih =>
    obtain ⟨k, v⟩ := entry
    rw [lookup_entry]
    by_cases hk : key = k <;> simp_all

theorem unwrapElements_append (es es' : List Object) :
    unwrapElements (es ++ es') = unwrapElements es ++ unwrapElements es' := by
  induction es with
  | nil => rfl
  | cons o es ih => simp only [List.cons_append, unwrapElements, ih]

/-! ### merge(with:) -/

section Merging
variable [JSONSerialization]

namespace JSON

/- What a json holds of an object that is no data is not larger. -/
theorem ofObject_le {o : Object} (h : load o = o) : sizeOf (ofObject o).object ≤ sizeOf o ∧
    (hasData (ofObject o).object = true → hasData o = true) := by
  have hs := sizeOf_unwrap o
  have hshows := shows_unwrap o
  rw [h] at hshows
  cases hcheck : check (unwrap o) with
  | ok u =>
    rw [hcheck] at hshows
    rw [hshows.2.2.1, ← check_eq hcheck, hasData_unwrap]
    exact ⟨hs, id⟩
  | error error =>
    rw [hcheck] at hshows
    rw [hshows.2.1]
    refine ⟨?_, fun hnull => by cases hnull⟩
    cases o <;> simp

/- Data is parsed to something without. -/
theorem ofObject_data (bytes : List UInt8) : hasData (ofObject (.data bytes)).object = false := by
  have hparsed : hasData (load (.data bytes)) = false := by
    cases h : JSONSerialization.jsonObject bytes with
    | none => simp only [load, h, Option.getD_none, hasData]
    | some parsed =>
      simp only [load, h, Option.getD_some]
      exact Plain.noData parsed (JSONSerialization.plain bytes parsed h)
  have hsame : ofObject (.data bytes) = ofObject (load (.data bytes)) := by
    rw [ofObject, ofObject, load_of_noData hparsed]
  rw [hsame, ← Bool.not_eq_true]
  intro hdata
  rw [(ofObject_le (load_of_noData hparsed)).2 hdata] at hparsed
  cases hparsed

omit [JSONSerialization] in
theorem lex_of_le {a b : Bool} {m n : ℕ} (h : a = true → b = true) (hless : m < n) :
    Prod.Lex (· < ·) (· < ·) (a.toNat, m) (b.toNat, n) := by
  cases a with
  | true =>
    rw [h rfl]
    exact Prod.Lex.right _ hless
  | false =>
    cases b with
    | true => exact Prod.Lex.left _ _ Nat.zero_lt_one
    | false => exact Prod.Lex.right _ hless

/- Each subscript parses data or goes to something smaller. -/
theorem measure_subKey {j : JSON} (h : j.type = .dictionary) (key : String) :
    Prod.Lex (· < ·) (· < ·)
      ((hasData (j.subKey key).object).toNat, sizeOf (j.subKey key).object)
      ((hasData j.object).toNat, sizeOf j.object) := by
  have hobject : j.object = .dictionary j.rawDictionary := by simp [object, h]
  have hsize : 1 + sizeOf j.rawDictionary = sizeOf j.object := by
    rw [hobject, Object.dictionary.sizeOf_spec]
  simp only [subKey, h, if_true]
  cases hlookup : j.rawDictionary.lookup key with
  | none =>
    have hpos : 0 < sizeOf j.rawDictionary := by
      cases j.rawDictionary with
      | nil => simp
      | cons entry entries =>
        rw [List.cons.sizeOf_spec]
        omega
    have hnull : (failed .notExist).object = .null := (shows_failed .notExist).2.1
    dsimp only
    rw [hnull, Object.null.sizeOf_spec]
    exact lex_of_le (fun hdata => by cases hdata) (by omega)
  | some o =>
    have hlt := sizeOf_lookup hlookup
    have hdata : hasData o = true → hasData j.object = true := by
      intro ho
      by_contra hnone
      rw [Bool.not_eq_true, hobject] at hnone
      rw [noData_lookup hnone hlookup] at ho
      cases ho
    have hplain : load o = o → Prod.Lex (· < ·) (· < ·)
        ((hasData (ofObject o).object).toNat, sizeOf (ofObject o).object)
        ((hasData j.object).toNat, sizeOf j.object) := by
      intro hload
      obtain ⟨hle, hless⟩ := ofObject_le hload
      exact lex_of_le (fun hd => hdata (hless hd)) (by omega)
    dsimp only
    cases o with
    | data bytes =>
      rw [ofObject_data, hdata rfl]
      exact Prod.Lex.left _ _ Nat.zero_lt_one
    | _ => exact hplain rfl

/- The keys of a dictionary may come in any order. -/
def merge (self other : JSON) (typecheck : Bool) : Except SwiftyJSONError JSON :=
  if self.type = other.type then
    match _h : other.type with
    | .dictionary =>
      other.rawDictionary.foldlM (fun j entry =>
        match merge (j.path [.key entry.1]) (other.path [.key entry.1]) false with
        | .ok merged => .ok (j.setPath [.key entry.1] merged)
        | .error error => .error error) self
    | .array =>
      .ok (ofObject (.array ((self.arrayValue ++ other.arrayValue).map fun j => .json j.object)))
    | _ => .ok other
  else if typecheck then .error .wrongType
  else .ok other
termination_by ((hasData other.object).toNat, sizeOf other.object)
decreasing_by exact measure_subKey _h entry.1

def merged (j other : JSON) : Except SwiftyJSONError JSON := j.merge other true

end JSON

theorem Plain.shows {o : Object} (h : Plain o) : Shows (JSON.ofObject o) (.ok o) := by
  have hshows := JSON.shows_unwrap o
  have hunwrap : unwrap o = o := Plain.unwrapped o h
  rw [JSON.load_of_noData (Plain.noData o h), hunwrap, check_eq_ok.mpr h.known] at hshows
  exact hshows

/-! ### One level -/

namespace JSON

/- One key of the loop over the other dictionary. -/
def mergeKey (other j : JSON) (entry : String × Object) : Except SwiftyJSONError JSON :=
  match merge (j.path [.key entry.1]) (other.path [.key entry.1]) false with
  | .ok merged => .ok (j.setPath [.key entry.1] merged)
  | .error error => .error error

theorem merge_dictionaries {j other : JSON} (hj : j.type = .dictionary)
    (hother : other.type = .dictionary) (typecheck : Bool) :
    merge j other typecheck = other.rawDictionary.foldlM (mergeKey other) j := by
  rw [merge, if_pos (hj.trans hother.symm)]
  split
  · rfl
  · simp_all
  · simp_all

theorem merge_arrays {j other : JSON} (hj : j.type = .array) (hother : other.type = .array)
    (typecheck : Bool) : merge j other typecheck =
      .ok (ofObject (.array ((j.arrayValue ++ other.arrayValue).map fun j => .json j.object))) := by
  rw [merge, if_pos (hj.trans hother.symm)]
  split
  · simp_all
  · rfl
  · simp_all

/- Where the other one replaces this one. -/
theorem merge_replaces {j other : JSON} {typecheck : Bool}
    (hsame : j.type = other.type → other.type ≠ .dictionary ∧ other.type ≠ .array)
    (hcheck : j.type ≠ other.type → typecheck = false) : merge j other typecheck = .ok other := by
  rw [merge]
  by_cases htype : j.type = other.type
  · obtain ⟨hdictionary, harray⟩ := hsame htype
    rw [if_pos htype]
    split
    · simp_all
    · simp_all
    · rfl
  · rw [if_neg htype, hcheck htype]
    rfl

theorem merge_wrongType {j other : JSON} (h : j.type ≠ other.type) :
    merge j other true = .error .wrongType := by
  rw [merge, if_neg h]
  rfl

theorem path_of_lookup {j : JSON} {d : List (String × Object)} (h : Shows j (.ok (.dictionary d)))
    (key : String) : j.path [.key key] =
      match d.lookup key with
      | some o => ofObject o
      | none => failed .notExist := by
  obtain ⟨-, htype, hobject, -⟩ := h
  have hraw : j.rawDictionary = d := by simpa [object, htype, typeOf] using hobject
  cases hlookup : d.lookup key <;> simp [path, sub, subKey, htype, typeOf, hraw, hlookup]

/- Appending the elements of two arrays, each wrapped in a json. -/
theorem unwrapElements_arrays (elements : List Object) (h : PlainElements elements) :
    unwrapElements ((elements.map ofObject).map fun j => .json j.object) = elements := by
  induction elements with
  | nil => rfl
  | cons o elements ih =>
    simp only [PlainElements] at h
    have ho := h.1.shows
    have hunwrapped : unwrap o = o := Plain.unwrapped o h.1
    simp only [List.map_cons, unwrapElements, unwrap, ho.2.2.1, hunwrapped, ih h.2]

theorem shows_arrays {j other : JSON} {a b : List Object} (hj : Shows j (.ok (.array a)))
    (hother : Shows other (.ok (.array b))) (ha : PlainElements a) (hb : PlainElements b)
    (typecheck : Bool) : ∃ m, merge j other typecheck = .ok m ∧ Shows m (.ok (.array (a ++ b))) := by
  refine ⟨_, merge_arrays hj.2.1 hother.2.1 typecheck, ?_⟩
  have hvalue : ∀ {i : JSON} {es : List Object}, Shows i (.ok (.array es)) →
      i.arrayValue = es.map ofObject := by
    rintro i es ⟨-, htype, hobject, -⟩
    have hraw : i.rawArray = es := by simpa [object, htype, typeOf] using hobject
    simp [arrayValue, htype, typeOf, hraw]
  have hshows := shows_unwrap
    (.array ((j.arrayValue ++ other.arrayValue).map fun j => .json j.object))
  rw [hvalue hj, hvalue hother, List.map_append] at hshows ⊢
  simp only [load, unwrap, unwrapElements_append, unwrapElements_arrays a ha,
    unwrapElements_arrays b hb] at hshows
  exact hshows

/- What two values of one key become. -/
def combine (x y : Object) : Object :=
  match merge (ofObject x) (ofObject y) false with
  | .ok merged => merged.object
  | .error _ => .null

/- The value of a key in the result. -/
def combineAt (d e : List (String × Object)) (key : String) : Option Object :=
  match e.lookup key, d.lookup key with
  | none, x => x
  | some y, none => some y
  | some y, some x => some (combine x y)

/-- What merging does at the top: arrays one behind the other, dictionaries key by key, and
otherwise the other one. -/
def Level (u : Object) : Object → Object → Prop
  | .array a, .array b => u = .array (a ++ b)
  | .dictionary d, .dictionary e => ∃ f, u = .dictionary f ∧ ∀ key, f.lookup key = combineAt d e key
  | _, w => u = w

/- Two values merge to something. -/
def Merges (x y : Object) : Prop :=
  ∃ m, merge (ofObject x) (ofObject y) false = .ok m ∧ Shows m (.ok (combine x y))

theorem shows_setPath_key {j new : JSON} {d : List (String × Object)} {w : Object}
    (hj : Shows j (.ok (.dictionary d))) (hnew : Shows new (.ok w)) (key : String) :
    Shows (j.setPath [.key key] new) (.ok (.dictionary (setEntry key w d))) :=
  shows_setPath hj hnew.2.2.1 hnew.2.2.2 (shows_known hnew) [.key key]

theorem shows_mergeKey {other j : JSON} {e g : List (String × Object)} {key : String} {y : Object}
    (hother : Shows other (.ok (.dictionary e))) (hj : Shows j (.ok (.dictionary g)))
    (hy : e.lookup key = some y) (hplain : Plain y)
    (hmerges : ∀ x, g.lookup key = some x → Merges x y) :
    ∃ m w, mergeKey other j (key, y) = .ok m ∧ Shows m (.ok (.dictionary (setEntry key w g))) ∧
      some w = combineAt g e key := by
  unfold mergeKey combineAt
  dsimp only
  rw [path_of_lookup hother, path_of_lookup hj, hy]
  cases hx : g.lookup key with
  | none =>
    have hnull : (failed .notExist).type = .null := rfl
    have htype := hplain.shows.2.1
    have hreplaces : merge (failed .notExist) (ofObject y) false = .ok (ofObject y) := by
      apply merge_replaces _ fun _ => rfl
      intro hsame
      rw [← hsame, hnull]
      decide
    refine ⟨_, y, ?_, shows_setPath_key hj hplain.shows key, rfl⟩
    simp only [hreplaces]
  | some x =>
    obtain ⟨m, hm, hshows⟩ := hmerges x hx
    refine ⟨_, combine x y, ?_, shows_setPath_key hj hshows key, rfl⟩
    simp only [hm]

theorem fold_shows {other : JSON} {e : List (String × Object)}
    (hother : Shows other (.ok (.dictionary e))) (he : PlainEntries e)
    (es : List (String × Object)) (hsub : ∀ entry ∈ es, e.lookup entry.1 = some entry.2)
    (hnodup : (es.map Prod.fst).Nodup) {j : JSON} {g : List (String × Object)}
    (hj : Shows j (.ok (.dictionary g)))
    (hmerges : ∀ entry ∈ es, ∀ x, g.lookup entry.1 = some x → Merges x entry.2) :
    ∃ m f, es.foldlM (mergeKey other) j = .ok m ∧ Shows m (.ok (.dictionary f)) ∧
      ∀ key, f.lookup key = if key ∈ es.map Prod.fst then combineAt g e key else g.lookup key := by
  induction es generalizing j g with
  | nil => exact ⟨j, g, rfl, hj, fun key => by simp⟩
  | cons entry es ih =>
    obtain ⟨k, y⟩ := entry
    have hy := hsub (k, y) List.mem_cons_self
    obtain ⟨hfresh, hrest⟩ := List.nodup_cons.mp hnodup
    obtain ⟨m, w, hstep, hm, hw⟩ :=
      shows_mergeKey hother hj hy (he.lookup hy) (hmerges (k, y) List.mem_cons_self)
    -- The keys still to come are as they were.
    have hlater : ∀ key, key ∈ es.map Prod.fst → (setEntry k w g).lookup key = g.lookup key := by
      intro key hkey
      have hne : key ≠ k := fun h => hfresh (h ▸ hkey)
      rw [lookup_setEntry, if_neg hne]
    obtain ⟨m', f, hfold, hm', hf⟩ := ih
      (fun entry hentry => hsub entry (List.mem_cons_of_mem _ hentry)) hrest hm (by
        intro entry hentry x hx
        rw [hlater entry.1 (List.mem_map_of_mem hentry)] at hx
        exact hmerges entry (List.mem_cons_of_mem _ hentry) x hx)
    refine ⟨m', f, ?_, hm', ?_⟩
    · rw [List.foldlM_cons, hstep]
      exact hfold
    · intro key
      rw [hf key]
      by_cases hkey : key ∈ es.map Prod.fst
      · have hall : key ∈ ((k, y) :: es).map Prod.fst := List.mem_cons_of_mem _ hkey
        rw [if_pos hkey, if_pos hall]
        unfold combineAt
        rw [hlater key hkey]
      · rw [if_neg hkey, lookup_setEntry]
        by_cases hk : key = k
        · have hall : key ∈ ((k, y) :: es).map Prod.fst := by simp [hk]
          rw [if_pos hk, if_pos hall, hw, hk]
        · have hnone : key ∉ ((k, y) :: es).map Prod.fst := by simp_all
          rw [if_neg hk, if_neg hnone]

/- Two dictionaries, when their values merge key by key. -/
theorem level_dictionaries {j other : JSON} {d e : List (String × Object)}
    (hj : Shows j (.ok (.dictionary d))) (hother : Shows other (.ok (.dictionary e)))
    (he : PlainEntries e) (hnodup : (e.map Prod.fst).Nodup)
    (hmerges : ∀ entry ∈ e, ∀ x, d.lookup entry.1 = some x → Merges x entry.2)
    (typecheck : Bool) :
    ∃ m u, merge j other typecheck = .ok m ∧ Shows m (.ok u) ∧
      Level u (.dictionary d) (.dictionary e) := by
  obtain ⟨m, f, hfold, hm, hf⟩ := fold_shows hother he e
    (fun entry hentry => lookup_of_mem hnodup hentry) hnodup hj hmerges
  have hraw : other.rawDictionary = e := by
    obtain ⟨-, htype, hobject, -⟩ := hother
    simpa [object, htype, typeOf] using hobject
  refine ⟨m, .dictionary f, ?_, hm, f, rfl, ?_⟩
  · rw [merge_dictionaries hj.2.1 hother.2.1, hraw]
    exact hfold
  · intro key
    rw [hf key]
    split
    · rfl
    · rename_i hnone
      rw [mem_keys] at hnone
      unfold combineAt
      cases hlookup : e.lookup key with
      | none => rfl
      | some o => exact absurd ⟨o, hlookup⟩ hnone

/-- Merging two parsed values of the same type, or without the type check. -/
theorem merge_level (n : ℕ) {v w : Object} (hn : sizeOf w = n) (hv : Plain v) (hw : Plain w)
    {j other : JSON} (hj : Shows j (.ok v)) (hother : Shows other (.ok w)) {typecheck : Bool}
    (hcheck : typeOf v ≠ typeOf w → typecheck = false) :
    ∃ m u, merge j other typecheck = .ok m ∧ Shows m (.ok u) ∧ Level u v w := by
  induction n using Nat.strongRecOn generalizing v w j other typecheck with
  | ind n ih =>
    by_cases hdictionary : typeOf v = .dictionary ∧ typeOf w = .dictionary
    · cases v <;> simp only [typeOf, reduceCtorEq, false_and] at hdictionary
      cases w <;> simp only [reduceCtorEq, and_false] at hdictionary
      rename_i d e
      simp only [Plain] at hv hw
      have hmerges : ∀ entry ∈ e, ∀ x, d.lookup entry.1 = some x → Merges x entry.2 := by
        intro entry hentry x hx
        have hy := lookup_of_mem hw.2 hentry
        have hsmaller : sizeOf entry.2 < n := by
          have hs := sizeOf_lookup hy
          rw [← hn, Object.dictionary.sizeOf_spec]
          omega
        have hxplain := hv.1.lookup hx
        have hyplain := hw.1.lookup hy
        have huntyped : typeOf x ≠ typeOf entry.2 → false = false := fun _ => rfl
        obtain ⟨m, u, hm, hu, -⟩ :=
          ih _ hsmaller rfl hxplain hyplain hxplain.shows hyplain.shows huntyped
        refine ⟨m, hm, ?_⟩
        unfold combine
        rw [hm]
        dsimp only
        rw [hu.2.2.1]
        exact hu
      exact level_dictionaries hj hother hw.1 hw.2 hmerges typecheck
    · by_cases harray : typeOf v = .array ∧ typeOf w = .array
      · cases v <;> simp only [typeOf, reduceCtorEq, false_and] at harray
        cases w <;> simp only [reduceCtorEq, and_false] at harray
        simp only [Plain] at hv hw
        obtain ⟨m, hm, hshows⟩ := shows_arrays hj hother hv hw typecheck
        exact ⟨m, _, hm, hshows, rfl⟩
      · refine ⟨other, w, ?_, hother, ?_⟩
        · apply merge_replaces
          · rw [hj.2.1, hother.2.1]
            intro hsame
            rw [hsame] at hdictionary harray
            simp_all
          · rw [hj.2.1, hother.2.1]
            exact hcheck
        · unfold Level
          split
          · exact absurd ⟨rfl, rfl⟩ harray
          · exact absurd ⟨rfl, rfl⟩ hdictionary
          · rfl

/-! ### Path by path -/

theorem combine_level {x y : Object} (hx : Plain x) (hy : Plain y) :
    Level (combine x y) x y ∧ check (combine x y) = .ok (combine x y) := by
  have huntyped : typeOf x ≠ typeOf y → false = false := fun _ => rfl
  obtain ⟨m, u, hm, hu, hlevel⟩ := merge_level (sizeOf y) rfl hx hy hx.shows hy.shows huntyped
  have hcombine : combine x y = u := by
    unfold combine
    rw [hm]
    exact hu.2.2.1
  rw [hcombine]
  exact ⟨hlevel, check_eq_ok.mpr (shows_known hu)⟩

theorem find_key {d : List (String × Object)} {key : String}
    (h : ∀ x, d.lookup key = some x → check x = .ok x) (ks : List JSONKey) :
    find (.dictionary d) (.key key :: ks) =
      match d.lookup key with
      | some x => find x ks
      | none => .error .notExist := by
  simp only [find, child]
  cases hlookup : d.lookup key with
  | none => rfl
  | some x => simp only [load_of_check (h x hlookup), h x hlookup]

/- A key of a merged dictionary. -/
theorem find_level {d e f : List (String × Object)} (hd : PlainEntries d) (he : PlainEntries e)
    (hf : ∀ key, f.lookup key = combineAt d e key) (key : String) (ks : List JSONKey) :
    find (.dictionary f) (.key key :: ks) =
      match combineAt d e key with
      | some z => find z ks
      | none => .error .notExist := by
  rw [← hf key]
  apply find_key
  intro z hz
  rw [hf key] at hz
  unfold combineAt at hz
  cases hy : e.lookup key with
  | none =>
    simp only [hy] at hz
    exact check_of_plain hd key z hz
  | some y =>
    cases hx : d.lookup key with
    | none =>
      simp only [hy, hx, Option.some.injEq] at hz
      rw [← hz]
      exact check_of_plain he key y hy
    | some x =>
      simp only [hy, hx, Option.some.injEq] at hz
      rw [← hz]
      exact (combine_level (hd.lookup hx) (he.lookup hy)).2

/-- A result over what it was merged from, at one path. -/
structure MergedAt (u v w : Except SwiftyJSONError Object) : Prop where
  overwritten : ∀ x, w = .ok x → typeOf x ≠ .array → typeOf x ≠ .dictionary → u = .ok x
  appended : ∀ a b, v = .ok (.array a) → w = .ok (.array b) → u = .ok (.array (a ++ b))
  replaced : ∀ b, w = .ok (.array b) → (∀ a, v ≠ .ok (.array a)) → u = .ok (.array b)
  kept : ∀ x, v = .ok x → w = .error .notExist → u = .ok x

theorem find_merged (ks : List String) {u v w : Object} (hv : Plain v) (hw : Plain w)
    (hlevel : Level u v w) :
    MergedAt (find u (ks.map .key)) (find v (ks.map .key)) (find w (ks.map .key)) := by
  induction ks generalizing u v w with
  | nil =>
    simp only [List.map_nil, find]
    constructor
    · intro x hx harray hdictionary
      cases hx
      cases v <;> cases w <;> simp_all [Level, typeOf]
    · intro a b ha hb
      cases ha
      cases hb
      rw [show u = .array (a ++ b) from hlevel]
    · intro b hb hnot
      cases hb
      cases v <;> simp_all [Level]
    · intro x _ hnone
      cases hnone
  | cons key ks ih =>
    rw [List.map_cons]
    cases w with
    | dictionary e =>
      simp only [Plain] at hw
      have hfindw := find_key (check_of_plain hw.1 key) (ks.map .key)
      cases v with
      | dictionary d =>
        simp only [Plain] at hv
        obtain ⟨f, rfl, hf⟩ := hlevel
        rw [find_level hv.1 hw.1 hf, hfindw, find_key (check_of_plain hv.1 key)]
        unfold combineAt
        cases hy : e.lookup key with
        | none => constructor <;> simp_all
        | some y =>
          cases hx : d.lookup key with
          | none => constructor <;> simp_all
          | some x =>
            have hxplain := hv.1.lookup hx
            have hyplain := hw.1.lookup hy
            exact ih hxplain hyplain (combine_level hxplain hyplain).1
      | _ =>
        rw [show u = .dictionary e from hlevel]
        constructor <;> simp_all [find, child]
    | _ => constructor <;> simp_all [find, child]

end JSON

end Merging

namespace JSON

/- No data is given to it here. -/
@[reducible] def unused : JSONSerialization where
  jsonObject _ := none
  plain := fun _ _ h => by cases h

end JSON

end PracticeApps.SwiftyJSON
