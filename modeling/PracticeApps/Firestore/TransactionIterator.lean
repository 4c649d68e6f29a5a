import Mathlib.Data.List.TakeWhile
import PracticeApps.Firestore.LevelDbTransaction

/-!
# The merged view

While a transaction changes under an iterator, each step of the iterator goes
to the next key of what the transaction would read at that moment.
-/

namespace PracticeApps.Firestore

variable {κ ν : Type} [LinearOrder κ] {t : LevelDbTransaction κ ν} {db : SortedMap κ ν}

/-! ### What a transaction reads -/

namespace LevelDbTransaction

/- Nothing is both changed and deleted. -/
def Disjoint (t : LevelDbTransaction κ ν) : Prop :=
  ∀ key, t.deletions.contains key = true → t.mutations.find? key = none

theorem bump_eq {version : ℤ} (h0 : 0 ≤ version) (h : version + 1 < 2 ^ 31) :
    bump version = version + 1 := Int.bmod_eq_of_le (by omega) (by omega)

theorem disjoint_init : (init : LevelDbTransaction κ ν).Disjoint := fun _ _ => rfl

theorem disjoint_put (h : t.Disjoint) (key : κ) (value : ν) : (t.put key value).Disjoint := by
  intro other hdeleted
  unfold put SortedMap.contains at *
  dsimp only at *
  rw [SortedMap.find?_erase] at hdeleted
  rw [SortedMap.find?_insert]
  by_cases hkey : other = key
  · rw [if_pos hkey] at hdeleted
    cases hdeleted
  · rw [if_neg hkey] at hdeleted ⊢
    exact h other hdeleted

theorem disjoint_delete (h : t.Disjoint) (key : κ) : (t.delete key).Disjoint := by
  intro other hdeleted
  unfold delete SortedMap.contains at *
  dsimp only at *
  rw [SortedMap.find?_insert] at hdeleted
  rw [SortedMap.find?_erase]
  by_cases hkey : other = key
  · rw [if_pos hkey]
  · rw [if_neg hkey] at hdeleted ⊢
    exact h other hdeleted

theorem get_cases {key : κ} {value : ν} (h : t.get db key = some value) :
    (key, value) ∈ t.mutations.entries ∨
      (key, value) ∈ db.entries ∧ t.deletions.contains key = false := by
  unfold get at h
  by_cases hdeleted : t.deletions.contains key = true
  · rw [if_pos hdeleted] at h
    cases h
  · rw [if_neg hdeleted] at h
    cases hfind : t.mutations.find? key with
    | some v =>
      rw [hfind] at h
      cases h
      exact Or.inl (SortedMap.find?_eq_some.mp hfind)
    | none =>
      rw [hfind] at h
      exact Or.inr ⟨SortedMap.find?_eq_some.mp h, Bool.eq_false_iff.mpr hdeleted⟩

theorem get_mutation (h : t.Disjoint) {e : κ × ν} (he : e ∈ t.mutations.entries) :
    t.get db e.1 = some e.2 := by
  have hfind : t.mutations.find? e.1 = some e.2 := SortedMap.find?_eq_some.mpr he
  have hlive : ¬ t.deletions.contains e.1 = true := by
    intro hdeleted
    rw [h e.1 hdeleted] at hfind
    cases hfind
  unfold get
  rw [if_neg hlive, hfind]

theorem get_db {e : κ × ν} (he : e ∈ db.entries) (hlive : ¬ t.deletions.contains e.1 = true)
    (hnone : ∀ v, (e.1, v) ∉ t.mutations.entries) : t.get db e.1 = some e.2 := by
  unfold get
  rw [if_neg hlive, SortedMap.find?_eq_none.mpr hnone]
  exact SortedMap.find?_eq_some.mpr he

end LevelDbTransaction

namespace Iterator

/-! ### Positions -/

/- A set of keys with everything above each of its keys. -/
def Upper (P : κ → Bool) : Prop := ∀ a b, a ≤ b → P a = true → P b = true

theorem upper_ge (key : κ) : Upper fun k => decide (key ≤ k) := by
  intro a b hab ha
  exact decide_eq_true (le_trans (of_decide_eq_true ha) hab)

theorem upper_gt (key : κ) : Upper fun k => decide (key < k) := by
  intro a b hab ha
  exact decide_eq_true (lt_of_lt_of_le (of_decide_eq_true ha) hab)

def remaining (m : SortedMap κ ν) (P : κ → Bool) : List (κ × ν) := m.entries.filter fun e => P e.1

/- Both iterators are where the keys of `P` begin. -/
structure At (t : LevelDbTransaction κ ν) (db : SortedMap κ ν) (P : κ → Bool)
    (dbIter mutationsIter : List (κ × ν)) : Prop where
  db : dbIter = skipDeleted t (remaining db P)
  mutations : mutationsIter = remaining t.mutations P

/-- The iterator is at the first key in `P` that the transaction reads. -/
def Points (t : LevelDbTransaction κ ν) (db : SortedMap κ ν) (P : κ → Bool)
    (it : Iterator κ ν) : Prop :=
  (it.isValid = true → P it.current.1 = true ∧ t.get db it.current.1 = some it.current.2 ∧
    ∀ key value, P key = true → t.get db key = some value → it.current.1 ≤ key) ∧
  (it.isValid = false → ∀ key, P key = true → t.get db key = none)

theorem mem_remaining {m : SortedMap κ ν} {P : κ → Bool} {e : κ × ν} :
    e ∈ remaining m P ↔ e ∈ m.entries ∧ P e.1 = true := List.mem_filter

theorem sorted_remaining (m : SortedMap κ ν) (P : κ → Bool) :
    (remaining m P).Pairwise fun a b => a.1 < b.1 := m.sorted.filter _

/- The first entry that is not skipped. -/
theorem skipDeleted_cons {es rest : List (κ × ν)} {e : κ × ν}
    (hsorted : es.Pairwise fun a b => a.1 < b.1) (h : skipDeleted t es = e :: rest) :
    e ∈ es ∧ ¬ t.deletions.contains e.1 = true ∧
      ∀ a ∈ es, ¬ t.deletions.contains a.1 = true → e.1 ≤ a.1 := by
  induction es with
  | nil => cases h
  | cons a es ih =>
    obtain ⟨hfirst, hrest⟩ := List.pairwise_cons.mp hsorted
    by_cases hdeleted : isDeleted t a = true
    · rw [skipDeleted, List.dropWhile_cons_of_pos hdeleted] at h
      obtain ⟨hin, hlive, hleast⟩ := ih hrest h
      refine ⟨List.mem_cons_of_mem _ hin, hlive, ?_⟩
      intro b hb hblive
      rcases List.mem_cons.mp hb with rfl | hb
      · exact absurd hdeleted hblive
      · exact hleast b hb hblive
    · rw [skipDeleted, List.dropWhile_cons_of_neg hdeleted] at h
      cases h
      refine ⟨List.mem_cons_self, hdeleted, ?_⟩
      intro b hb _
      rcases List.mem_cons.mp hb with rfl | hb
      · exact le_refl _
      · exact le_of_lt (hfirst b hb)

theorem skipDeleted_nil {es : List (κ × ν)} (h : skipDeleted t es = []) :
    ∀ a ∈ es, t.deletions.contains a.1 = true := by
  intro a ha
  exact List.dropWhile_eq_nil_iff.mp h a ha

/- In a sorted list nothing is in front of the head. -/
theorem head_le {e : κ × ν} {es : List (κ × ν)} (h : (e :: es).Pairwise fun a b => a.1 < b.1)
    {a : κ × ν} (ha : a ∈ e :: es) : e.1 ≤ a.1 := by
  rcases List.mem_cons.mp ha with rfl | ha
  · exact le_refl _
  · exact le_of_lt ((List.pairwise_cons.mp h).1 a ha)

/- The entry of the database iterator, in front of all mutations, is the first that is read. -/
theorem db_first {P : κ → Bool} {e : κ × ν} {rest : List (κ × ν)}
    (hD : skipDeleted t (remaining db P) = e :: rest)
    (hbehind : ∀ m ∈ remaining t.mutations P, e.1 < m.1) :
    P e.1 = true ∧ t.get db e.1 = some e.2 ∧
      ∀ key value, P key = true → t.get db key = some value → e.1 ≤ key := by
  obtain ⟨hin, hlive, hleast⟩ := skipDeleted_cons (sorted_remaining _ _) hD
  obtain ⟨hmem, hP⟩ := mem_remaining.mp hin
  refine ⟨hP, ?_, ?_⟩
  · apply LevelDbTransaction.get_db hmem hlive
    intro v hv
    exact lt_irrefl _ (hbehind (e.1, v) (mem_remaining.mpr ⟨hv, hP⟩))
  · intro key value hPkey hget
    rcases LevelDbTransaction.get_cases hget with hkey | ⟨hkey, hkeyLive⟩
    · exact (hbehind _ (mem_remaining.mpr ⟨hkey, hPkey⟩)).le
    · exact hleast _ (mem_remaining.mpr ⟨hkey, hPkey⟩) (Bool.eq_false_iff.mp hkeyLive)

/- The first mutation, with no live entry of the database in front, is the first that is read. -/
theorem mutation_first (hdisjoint : t.Disjoint) {P : κ → Bool} {m : κ × ν} {ms : List (κ × ν)}
    (hM : remaining t.mutations P = m :: ms)
    (hle : ∀ e ∈ remaining db P, ¬ t.deletions.contains e.1 = true → m.1 ≤ e.1) :
    P m.1 = true ∧ t.get db m.1 = some m.2 ∧
      ∀ key value, P key = true → t.get db key = some value → m.1 ≤ key := by
  have hsorted := sorted_remaining t.mutations P
  have hin : m ∈ remaining t.mutations P := by
    rw [hM]
    exact List.mem_cons_self
  obtain ⟨hmem, hP⟩ := mem_remaining.mp hin
  refine ⟨hP, LevelDbTransaction.get_mutation hdisjoint hmem, ?_⟩
  intro key value hPkey hget
  rcases LevelDbTransaction.get_cases hget with hkey | ⟨hkey, hlive⟩
  · have hkeyIn : (key, value) ∈ remaining t.mutations P := mem_remaining.mpr ⟨hkey, hPkey⟩
    rw [hM] at hsorted hkeyIn
    exact head_le hsorted hkeyIn
  · exact hle _ (mem_remaining.mpr ⟨hkey, hPkey⟩) (Bool.eq_false_iff.mp hlive)

/-- `UpdateCurrent` takes the smaller one of the two, a mutation if they are equal. -/
theorem updateCurrent_points (hdisjoint : t.Disjoint) {P : κ → Bool} {it : Iterator κ ν}
    (hat : At t db P it.dbIter it.mutationsIter) : Points t db P it.updateCurrent := by
  obtain ⟨hdb, hmutations⟩ := hat
  unfold updateCurrent nextEntry
  cases hD : it.dbIter with
  | nil =>
    rw [hdb] at hD
    have hdeleted := skipDeleted_nil hD
    cases hM : it.mutationsIter with
    | nil =>
      rw [hmutations] at hM
      refine ⟨fun h => (by cases h), fun _ key hP => ?_⟩
      cases hget : t.get db key with
      | none => rfl
      | some value =>
        rcases LevelDbTransaction.get_cases hget with hmem | ⟨hmem, hlive⟩
        · have hin : (key, value) ∈ remaining t.mutations P := mem_remaining.mpr ⟨hmem, hP⟩
          rw [hM] at hin
          cases hin
        · rw [hdeleted _ (mem_remaining.mpr ⟨hmem, hP⟩)] at hlive
          cases hlive
    | cons m ms =>
      rw [hmutations] at hM
      exact ⟨fun _ => mutation_first hdisjoint hM fun e he hlive => absurd (hdeleted e he) hlive,
        fun h => (by cases h)⟩
  | cons e rest =>
    rw [hdb] at hD
    cases hM : it.mutationsIter with
    | nil =>
      rw [hmutations] at hM
      refine ⟨fun _ => db_first hD fun m hm => ?_, fun h => (by cases h)⟩
      rw [hM] at hm
      cases hm
    | cons m ms =>
      rw [hmutations] at hM
      dsimp only
      by_cases hle : m.1 ≤ e.1
      · rw [if_pos hle]
        obtain ⟨-, -, hleast⟩ := skipDeleted_cons (sorted_remaining _ _) hD
        exact ⟨fun _ => mutation_first hdisjoint hM fun e' he' hlive =>
          hle.trans (hleast e' he' hlive), fun h => (by cases h)⟩
      · rw [if_neg hle]
        have hsorted := sorted_remaining t.mutations P
        refine ⟨fun _ => db_first hD fun m' hm' => ?_, fun h => (by cases h)⟩
        rw [hM] at hsorted hm'
        exact (lt_of_not_ge hle).trans_le (head_le hsorted hm')

/-! ### Moving on -/

/- Where the iterator is, and that it points there. -/
def Settled (t : LevelDbTransaction κ ν) (db : SortedMap κ ν) (it : Iterator κ ν) : Prop :=
  ∃ P, Upper P ∧ At t db P it.dbIter it.mutationsIter ∧
    nextEntry it.dbIter it.mutationsIter =
      if it.isValid then some (it.isMutation, it.current) else none

theorem updateCurrent_settled {P : κ → Bool} {it : Iterator κ ν} (hupper : Upper P)
    (hat : At t db P it.dbIter it.mutationsIter) : Settled t db it.updateCurrent := by
  unfold updateCurrent
  cases hnext : nextEntry it.dbIter it.mutationsIter with
  | none => exact ⟨P, hupper, hat, hnext⟩
  | some entry => exact ⟨P, hupper, hat, hnext⟩

@[simp] theorem updateCurrent_lastVersion (it : Iterator κ ν) :
    it.updateCurrent.lastVersion = it.lastVersion := by
  unfold updateCurrent
  cases nextEntry it.dbIter it.mutationsIter <;> rfl

/- Of what is left, what is above one of its keys. -/
theorem remaining_gt {P : κ → Bool} (hupper : Upper P) {k : κ} (hP : P k = true)
    (m : SortedMap κ ν) :
    (remaining m fun k' => decide (k < k')) =
      (remaining m P).filter fun e => decide (k < e.1) := by
  unfold remaining
  rw [List.filter_filter]
  apply List.filter_congr
  intro e _
  dsimp only
  by_cases hlt : k < e.1
  · rw [decide_eq_true hlt, hupper k e.1 (le_of_lt hlt) hP]
    rfl
  · rw [decide_eq_false hlt]
    rfl

theorem advanceLDB_at {P : κ → Bool} (hupper : Upper P) {e : κ × ν} {rest : List (κ × ν)}
    (h : skipDeleted t (remaining db P) = e :: rest) :
    skipDeleted t rest = skipDeleted t (remaining db fun k => decide (e.1 < k)) := by
  have hin := (skipDeleted_cons (sorted_remaining _ _) h).1
  rw [remaining_gt hupper (mem_remaining.mp hin).2,
    ← SortedMap.tail_dropWhile (sorted_remaining db P) h]

/- The database iterator stays where it is while a mutation in front of it is passed. -/
theorem stays_at {P : κ → Bool} (hupper : Upper P) {k : κ} (hP : P k = true)
    (h : ∀ e ∈ skipDeleted t (remaining db P), k < e.1) :
    skipDeleted t (remaining db P) = skipDeleted t (remaining db fun k' => decide (k < k')) := by
  rw [remaining_gt hupper hP]
  exact (SortedMap.dropWhile_filter (sorted_remaining db P) h).symm

theorem mutations_tail {P : κ → Bool} (hupper : Upper P) {m : κ × ν} {ms : List (κ × ν)}
    (h : m :: ms = remaining t.mutations P) :
    ms = remaining t.mutations fun k => decide (m.1 < k) := by
  have hin : m ∈ remaining t.mutations P := by
    rw [← h]
    exact List.mem_cons_self
  have hsorted := sorted_remaining t.mutations P
  rw [remaining_gt hupper (mem_remaining.mp hin).2]
  rw [← h] at hsorted ⊢
  exact SortedMap.tail_eq_filter hsorted

theorem sorted_skipDeleted {es : List (κ × ν)} (h : es.Pairwise fun a b => a.1 < b.1) :
    (skipDeleted t es).Pairwise fun a b => a.1 < b.1 := h.sublist (List.dropWhile_sublist _)

/-- Moving on leaves what is above the key the iterator pointed to. -/
theorem advance_at {P : κ → Bool} (hupper : Upper P) {it : Iterator κ ν}
    (hat : At t db P it.dbIter it.mutationsIter)
    (hnext : nextEntry it.dbIter it.mutationsIter = some (it.isMutation, it.current)) :
    ∃ moved : Iterator κ ν, it.advance t true = .ok moved.updateCurrent ∧
      moved.lastVersion = it.lastVersion ∧
      At t db (fun k => decide (it.current.1 < k)) moved.dbIter moved.mutationsIter := by
  obtain ⟨dbIter, lastVersion, mutationsIter, current, isMutation, isValid⟩ := it
  obtain ⟨hdb, hmutations⟩ := hat
  dsimp only at hdb hmutations hnext ⊢
  cases mutationsIter with
  | nil =>
    cases dbIter with
    | nil => cases hnext
    | cons e rest =>
      cases hnext
      refine ⟨_, rfl, rfl, advanceLDB_at hupper hdb.symm, ?_⟩
      have hin := (skipDeleted_cons (sorted_remaining _ _) hdb.symm).1
      rw [remaining_gt hupper (mem_remaining.mp hin).2, ← hmutations]
      rfl
  | cons m ms =>
    have hPm : P m.1 = true := by
      have hin : m ∈ remaining t.mutations P := by
        rw [← hmutations]
        exact List.mem_cons_self
      exact (mem_remaining.mp hin).2
    cases dbIter with
    | nil =>
      cases hnext
      refine ⟨_, rfl, rfl, ?_, mutations_tail hupper hmutations⟩
      show [] = _
      rw [hdb]
      apply stays_at hupper hPm
      rw [← hdb]
      intro e he
      exact absurd he List.not_mem_nil
    | cons e rest =>
      have hsorted : (e :: rest).Pairwise fun a b => a.1 < b.1 := by
        rw [hdb]
        exact sorted_skipDeleted (sorted_remaining _ _)
      unfold nextEntry at hnext
      dsimp only at hnext
      by_cases hle : m.1 ≤ e.1
      · rw [if_pos hle] at hnext
        cases hnext
        unfold advance shadows
        dsimp only
        rw [if_pos rfl]
        by_cases hkey : e.1 = current.1
        · rw [if_pos (decide_eq_true hkey)]
          refine ⟨_, rfl, rfl, ?_, mutations_tail hupper hmutations⟩
          rw [← hkey]
          exact advanceLDB_at hupper hdb.symm
        · rw [if_neg (by rw [decide_eq_true_eq]; exact hkey)]
          refine ⟨_, rfl, rfl, ?_, mutations_tail hupper hmutations⟩
          show e :: rest = _
          rw [hdb]
          apply stays_at hupper hPm
          rw [← hdb]
          intro e' he'
          exact lt_of_lt_of_le (lt_of_le_of_ne hle (Ne.symm hkey)) (head_le hsorted he')
      · rw [if_neg hle] at hnext
        cases hnext
        have hlt := lt_of_not_ge hle
        have hin := (skipDeleted_cons (sorted_remaining _ _) hdb.symm).1
        refine ⟨_, rfl, rfl, advanceLDB_at hupper hdb.symm, ?_⟩
        show m :: ms = _
        have hmsorted := sorted_remaining t.mutations P
        rw [remaining_gt hupper (mem_remaining.mp hin).2]
        rw [← hmutations] at hmsorted ⊢
        symm
        rw [List.filter_eq_self]
        intro m' hm'
        exact decide_eq_true (lt_of_lt_of_le hlt (head_le hmsorted hm'))

/-! ### Seek and next -/

theorem seek_at (t : LevelDbTransaction κ ν) (db : SortedMap κ ν) (it : Iterator κ ν) (key : κ) :
    ∃ moved : Iterator κ ν, it.seek t db true key = .ok moved.updateCurrent ∧
      moved.lastVersion = t.version ∧
      At t db (fun k => decide (key ≤ k)) moved.dbIter moved.mutationsIter := by
  refine ⟨_, rfl, rfl, ?_, ?_⟩
  · exact congrArg (skipDeleted t) (SortedMap.lowerBound_eq db key)
  · exact SortedMap.lowerBound_eq t.mutations key

/- The iterator belongs to the transaction as it is now, or to an earlier version. -/
structure Follows (t : LevelDbTransaction κ ν) (db : SortedMap κ ν) (it : Iterator κ ν) :
    Prop where
  version : it.lastVersion ≤ t.version
  settled : it.isValid = true → it.lastVersion = t.version → Settled t db it

theorem follows_new [Inhabited κ] [Inhabited ν] : Follows t db (new t) where
  version := le_refl _
  settled := fun h => by cases h

/-- A seek stops where the keys from its own on begin. -/
theorem seek_spec (hdisjoint : t.Disjoint) (db : SortedMap κ ν) (it : Iterator κ ν) (key : κ) :
    ∃ it', it.seek t db true key = .ok it' ∧ Points t db (fun k => decide (key ≤ k)) it' ∧
      Follows t db it' ∧ it'.lastVersion = t.version := by
  obtain ⟨moved, hseek, hversion, hat⟩ := seek_at t db it key
  have hsame : moved.updateCurrent.lastVersion = t.version := by
    rw [updateCurrent_lastVersion, hversion]
  exact ⟨_, hseek, updateCurrent_points hdisjoint hat,
    ⟨le_of_eq hsame, fun _ _ => updateCurrent_settled (upper_ge key) hat⟩, hsame⟩

theorem follows_later {t' : LevelDbTransaction κ ν} {it : Iterator κ ν} (h : Follows t db it)
    (hlater : t.version < t'.version) : Follows t' db it := by
  have hle := h.version
  constructor
  · omega
  · intro _ hsame
    omega

theorem advance_spec (hdisjoint : t.Disjoint) {it : Iterator κ ν} (hvalid : it.isValid = true)
    (hversion : it.lastVersion ≤ t.version) (hsettled : Settled t db it) :
    ∃ it', it.advance t true = .ok it' ∧ Points t db (fun k => decide (it.current.1 < k)) it' ∧
      Follows t db it' := by
  obtain ⟨P, hupper, hat, hnext⟩ := hsettled
  rw [if_pos hvalid] at hnext
  obtain ⟨moved, hadvance, hsame, hmoved⟩ := advance_at hupper hat hnext
  refine ⟨_, hadvance, updateCurrent_points hdisjoint hmoved, ?_, ?_⟩
  · rw [updateCurrent_lastVersion, hsame]
    exact hversion
  · intro _ _
    exact updateCurrent_settled (upper_gt _) hmoved

/- What comes at or behind a key that is passed comes behind it. -/
theorem points_gt {it : Iterator κ ν} {key : κ}
    (h : Points t db (fun k => decide (key ≤ k)) it)
    (hpassed : it.isValid = true → key < it.current.1) :
    Points t db (fun k => decide (key < k)) it := by
  obtain ⟨hvalid, hinvalid⟩ := h
  constructor
  · intro hv
    obtain ⟨-, hget, hleast⟩ := hvalid hv
    refine ⟨decide_eq_true (hpassed hv), hget, ?_⟩
    intro k value hk hread
    exact hleast k value (decide_eq_true (le_of_lt (of_decide_eq_true hk))) hread
  · intro hv k hk
    exact hinvalid hv k (decide_eq_true (le_of_lt (of_decide_eq_true hk)))

/-- One step of the iterator, whatever happened to the transaction since the last one. -/
theorem next_spec (hdisjoint : t.Disjoint) {it : Iterator κ ν} (h : Follows t db it)
    (hvalid : it.isValid = true) :
    ∃ it', it.next t db true = .ok it' ∧
      Points t db (fun k => decide (it.current.1 < k)) it' ∧ Follows t db it' := by
  unfold next syncToTransaction
  rw [if_pos hvalid]
  by_cases hlate : it.lastVersion < t.version
  · -- Something changed: seek the old key again.
    rw [if_pos hlate]
    obtain ⟨sought, hseek, hpoints, hfollows, hsame⟩ := seek_spec hdisjoint db it it.current.1
    rw [hseek]
    dsimp only [bind, Except.bind, pure, Except.pure]
    cases hv : sought.isValid with
    | false =>
      refine ⟨_, rfl, points_gt hpoints ?_, hfollows⟩
      intro hv'
      rw [hv] at hv'
      cases hv'
    | true =>
      obtain ⟨hge, -, -⟩ := hpoints.1 hv
      have hle := of_decide_eq_true hge
      by_cases hmoved : it.current.1 < sought.current.1
      · rw [decide_eq_true hmoved]
        exact ⟨_, rfl, points_gt hpoints fun _ => hmoved, hfollows⟩
      · rw [decide_eq_false hmoved]
        have hkey := le_antisymm hle (not_lt.mp hmoved)
        obtain ⟨it', hadvance, hbehind, hfollows'⟩ :=
          advance_spec hdisjoint hv hfollows.version (hfollows.settled hv hsame)
        rw [← hkey] at hbehind
        exact ⟨it', hadvance, hbehind, hfollows'⟩
  · rw [if_neg hlate]
    dsimp only [bind, Except.bind]
    rw [hvalid]
    have hsame := le_antisymm h.version (not_lt.mp hlate)
    exact advance_spec hdisjoint hvalid h.version (h.settled hvalid hsame)

/- Without a read that fails, a failing one makes no difference. -/
theorem advance_false (t : LevelDbTransaction κ ν) (it : Iterator κ ν) :
    it.advance t false = .error .dbIterStatus ∨ it.advance t false = it.advance t true := by
  unfold advance advanceLDB
  by_cases hmutation : it.isMutation = true
  · by_cases hshadows : it.shadows = true
    · rw [if_pos hmutation, if_pos hshadows]
      exact Or.inl rfl
    · rw [if_pos hmutation, if_pos hmutation, if_neg hshadows, if_neg hshadows]
      exact Or.inr rfl
  · rw [if_neg hmutation]
    exact Or.inl rfl

theorem next_false (t : LevelDbTransaction κ ν) (db : SortedMap κ ν) {it : Iterator κ ν}
    (hvalid : it.isValid = true) :
    it.next t db false = .error .dbIterStatus ∨ it.next t db false = it.next t db true := by
  unfold next syncToTransaction
  rw [if_pos hvalid, if_pos hvalid]
  by_cases hlate : it.lastVersion < t.version
  · rw [if_pos hlate]
    exact Or.inl rfl
  · rw [if_neg hlate, if_neg hlate]
    dsimp only [bind, Except.bind]
    rw [hvalid]
    exact advance_false t it

end Iterator

/-! ### Runs -/

namespace Session
variable [Inhabited κ] [Inhabited ν]

/- Up to 2 ^ 31 changes the version is their number. -/
structure Inv (db : SortedMap κ ν) (calls : List (Call κ ν)) (s : Session κ ν) : Prop where
  disjoint : s.txn.Disjoint
  version : calls.countP Call.changes < 2 ^ 31 → s.txn.version = calls.countP Call.changes
  follows : calls.countP Call.changes < 2 ^ 31 → s.it.Follows s.txn db

theorem inv_begin : Inv db [] (begin : Session κ ν) where
  disjoint := LevelDbTransaction.disjoint_init
  version := fun _ => rfl
  follows := fun _ => Iterator.follows_new

variable {calls : List (Call κ ν)} {s s' : Session κ ν}

omit [Inhabited κ] [Inhabited ν] in
/- A call that only moves the iterator. -/
theorem inv_moved (h : Inv db calls s) {call : Call κ ν} (hcall : call.changes = false)
    {it : Iterator κ ν}
    (hit : calls.countP Call.changes < 2 ^ 31 → it.Follows s.txn db) :
    Inv db (calls ++ [call]) { s with it := it } := by
  have hsame : (calls ++ [call]).countP Call.changes = calls.countP Call.changes := by
    rw [List.countP_append, List.countP_singleton, hcall]
    rfl
  constructor
  · exact h.disjoint
  · rw [hsame]
    exact h.version
  · rw [hsame]
    exact hit

omit [Inhabited κ] [Inhabited ν] in
/- A call of `Put` or `Delete`. -/
theorem inv_changed (h : Inv db calls s) {call : Call κ ν} (hcall : call.changes = true)
    {txn : LevelDbTransaction κ ν} (hdisjoint : txn.Disjoint)
    (hversion : txn.version = LevelDbTransaction.bump s.txn.version) :
    Inv db (calls ++ [call]) { s with txn := txn } := by
  have hmore : (calls ++ [call]).countP Call.changes = calls.countP Call.changes + 1 := by
    rw [List.countP_append, List.countP_singleton, hcall]
    rfl
  have hbump : calls.countP Call.changes + 1 < 2 ^ 31 →
      txn.version = calls.countP Call.changes + 1 := by
    intro hfew
    rw [hversion, h.version (by omega), LevelDbTransaction.bump_eq (by omega) (by omega)]
  constructor
  · exact hdisjoint
  · rw [hmore]
    push_cast
    exact hbump
  · rw [hmore]
    intro hfew
    have hbefore := h.version (by omega)
    have hafter := hbump hfew
    have hlater : s.txn.version < txn.version := by omega
    exact Iterator.follows_later (h.follows (by omega)) hlater

theorem step_inv {call : Call κ ν} (h : Inv db calls s) (hstep : step db s call = .ok s') :
    Inv db (calls ++ [call]) s' := by
  cases call with
  | put key value =>
    cases hstep
    exact inv_changed h rfl (LevelDbTransaction.disjoint_put h.disjoint key value) rfl
  | delete key =>
    cases hstep
    exact inv_changed h rfl (LevelDbTransaction.disjoint_delete h.disjoint key) rfl
  | newIterator =>
    cases hstep
    exact inv_moved h rfl fun _ => Iterator.follows_new
  | seek key reads =>
    cases reads with
    | false => cases hstep
    | true =>
      obtain ⟨it', hseek, -, hfollows, -⟩ := Iterator.seek_spec h.disjoint db s.it key
      unfold step at hstep
      dsimp only at hstep
      rw [hseek] at hstep
      cases hstep
      exact inv_moved h rfl fun _ => hfollows
  | next reads =>
    obtain ⟨it', hnext, hs'⟩ : ∃ it', s.it.next s.txn db reads = .ok it' ∧
        s' = { s with it := it' } := by
      unfold step at hstep
      dsimp only at hstep
      cases hnext : s.it.next s.txn db reads with
      | error e =>
        rw [hnext] at hstep
        cases hstep
      | ok it' =>
        rw [hnext] at hstep
        cases hstep
        exact ⟨it', rfl, rfl⟩
    rw [hs']
    refine inv_moved h rfl fun hfew => ?_
    have hvalid : s.it.isValid = true := by
      by_contra hnot
      unfold Iterator.next at hnext
      rw [if_neg hnot] at hnext
      cases hnext
    obtain ⟨it'', hnext', -, hfollows⟩ := Iterator.next_spec h.disjoint (h.follows hfew) hvalid
    have hsame : it' = it'' := by
      cases reads with
      | true =>
        rw [hnext'] at hnext
        cases hnext
        rfl
      | false =>
        rcases Iterator.next_false s.txn db hvalid with herror | hok
        · rw [herror] at hnext
          cases hnext
        · rw [hok, hnext'] at hnext
          cases hnext
          rfl
    rw [hsame]
    exact hfollows

theorem run_inv (hrun : EventMachine.exec (step db) begin calls = .ok s) : Inv db calls s :=
  EventMachine.exec_history (E := fun _ _ => True) (I := Inv db) inv_begin
    (fun _ _ _ _ hI _ hstep => step_inv hI hstep)
    (EventMachine.atEach_of_forall (fun _ _ => trivial) _ _) hrun

/-- After any calls with fewer than 2 ^ 31 changes, a seek finds the first key from there on that
the transaction reads, and a valid iterator steps to the first such key behind its own, unless a
read of the database fails. -/
theorem iterator_reads_the_merge (hrun : EventMachine.exec (step db) begin calls = .ok s)
    (hfew : calls.countP Call.changes < 2 ^ 31) :
    (∀ key reads, (∃ it', step db s (.seek key reads) = .ok { s with it := it' } ∧
        Iterator.Points s.txn db (fun k => decide (key ≤ k)) it') ∨
      reads = false ∧ step db s (.seek key reads) = .error .dbIterStatus) ∧
    (s.it.isValid = true → ∀ reads, (∃ it', step db s (.next reads) = .ok { s with it := it' } ∧
        Iterator.Points s.txn db (fun k => decide (s.it.current.1 < k)) it') ∨
      reads = false ∧ step db s (.next reads) = .error .dbIterStatus) := by
  have hinv := run_inv hrun
  constructor
  · intro key reads
    cases reads with
    | false => exact Or.inr ⟨rfl, rfl⟩
    | true =>
      obtain ⟨it', hseek, hpoints, -, -⟩ := Iterator.seek_spec hinv.disjoint db s.it key
      refine Or.inl ⟨it', ?_, hpoints⟩
      unfold step
      dsimp only
      rw [hseek]
      rfl
  · intro hvalid reads
    obtain ⟨it', hnext, hpoints, -⟩ := Iterator.next_spec hinv.disjoint (hinv.follows hfew) hvalid
    have hok : s.it.next s.txn db reads = .ok it' →
        step db s (.next reads) = .ok { s with it := it' } := by
      intro h
      unfold step
      dsimp only
      rw [h]
      rfl
    cases reads with
    | true => exact Or.inl ⟨it', hok hnext, hpoints⟩
    | false =>
      rcases Iterator.next_false s.txn db hvalid with herror | hsame
      · refine Or.inr ⟨rfl, ?_⟩
        unfold step
        dsimp only
        rw [herror]
        rfl
      · exact Or.inl ⟨it', hok (hsame.trans hnext), hpoints⟩

def twoKeys : SortedMap ℕ ℕ := { entries := [(1, 10), (3, 30)], sorted := by decide }

/- The first key is deleted while the iterator is on it. -/
def deleteUnder : List (Call ℕ ℕ) := [.put 2 20, .seek 1 true, .delete 1]

theorem deleteUnder_reads : ∃ s it', EventMachine.exec (step twoKeys) begin deleteUnder = .ok s ∧
    step twoKeys s (.next true) = .ok { s with it := it' } ∧
    Iterator.Points s.txn twoKeys (fun k => decide (1 < k)) it' := by
  have hrun : EventMachine.exec (step twoKeys) begin deleteUnder = .ok _ := rfl
  obtain ⟨-, hnext⟩ := iterator_reads_the_merge hrun (by decide)
  rcases hnext rfl true with ⟨it', hstep, hpoints⟩ | ⟨habsurd, -⟩
  · exact ⟨_, it', rfl, hstep, hpoints⟩
  · cases habsurd

end Session

end PracticeApps.Firestore
