import PracticeApps.Firestore.TransactionIterator

/-!
# Scans and commits

A loop over the keys of a transaction visits what the database will hold after
the commit, also while its body changes what it has passed.
-/

namespace PracticeApps.Firestore

variable {κ ν : Type} [LinearOrder κ] {t : LevelDbTransaction κ ν} {db : SortedMap κ ν}

namespace LevelDbTransaction

/-- The database after the commit. -/
def committed (t : LevelDbTransaction κ ν) (db : SortedMap κ ν) : SortedMap κ ν :=
  db.updates t.commit

theorem get_eq (t : LevelDbTransaction κ ν) (db : SortedMap κ ν) (key : κ) :
    t.get db key =
      match t.deletions.find? key, t.mutations.find? key with
      | some _, _ => none
      | none, some value => some value
      | none, none => db.find? key := by
  unfold get SortedMap.contains
  cases t.deletions.find? key with
  | some _ => rfl
  | none => cases t.mutations.find? key <;> rfl

/- What a batch of one kind of change says about a key. -/
theorem find?_changes {α : Type} (m : SortedMap κ α) (f : α → Option ν) (key : κ) :
    ((m.entries.map fun e => (e.1, f e.2)).reverse.find? fun c => decide (key = c.1)) =
      (m.find? key).map fun a => (key, f a) := by
  cases hfind : m.find? key with
  | none =>
    rw [Option.map_none, List.find?_eq_none]
    intro c hc
    obtain ⟨e, he, rfl⟩ := List.mem_map.mp (List.mem_reverse.mp hc)
    rw [decide_eq_true_eq]
    rintro rfl
    exact SortedMap.find?_eq_none.mp hfind e.2 he
  | some a =>
    have hmem := SortedMap.find?_eq_some.mp hfind
    cases hlast : (m.entries.map fun e => (e.1, f e.2)).reverse.find? fun c => decide (key = c.1) with
    | none =>
      have hnot := List.find?_eq_none.mp hlast (key, f a)
        (List.mem_reverse.mpr (List.mem_map.mpr ⟨(key, a), hmem, rfl⟩))
      exact absurd (decide_eq_true rfl) hnot
    | some c =>
      obtain ⟨e, he, rfl⟩ := List.mem_map.mp (List.mem_reverse.mp (List.mem_of_find?_eq_some hlast))
      have hkey := of_decide_eq_true
        (List.find?_some (p := fun c : κ × Option ν => decide (key = c.1)) hlast)
      rw [SortedMap.key_injective m.sorted he hmem hkey.symm]
      rfl

/-- What the transaction reads is what the commit leaves behind. -/
theorem find?_committed (h : t.Disjoint) (key : κ) : (t.committed db).find? key = t.get db key := by
  unfold committed commit
  rw [SortedMap.find?_updates, List.reverse_append, List.find?_append,
    find?_changes t.mutations some, find?_changes t.deletions fun _ => none]
  rw [get_eq]
  cases hdeleted : t.deletions.find? key with
  | some u =>
    have hcontains : t.deletions.contains key = true := by
      unfold SortedMap.contains
      rw [hdeleted]
      rfl
    rw [h key hcontains]
    rfl
  | none => cases t.mutations.find? key <;> rfl

theorem get_change (c : κ × Option ν) (key : κ) :
    (t.change c).get db key = if key = c.1 then c.2 else t.get db key := by
  obtain ⟨other, value⟩ := c
  rw [get_eq, get_eq]
  unfold change
  cases value with
  | some v =>
    dsimp only [put]
    rw [SortedMap.find?_erase, SortedMap.find?_insert]
    by_cases hkey : key = other <;> simp [hkey]
  | none =>
    dsimp only [delete]
    rw [SortedMap.find?_erase, SortedMap.find?_insert]
    by_cases hkey : key = other <;> simp [hkey]

/- Changes of the transaction are updates of what it reads. -/
theorem get_changes (h : t.Disjoint) (cs : List (κ × Option ν)) (key : κ) :
    (cs.foldl change t).get db key = ((t.committed db).updates cs).find? key := by
  induction cs using List.reverseRecOn with
  | nil => exact (find?_committed h key).symm
  | append_singleton cs c ih =>
    unfold SortedMap.updates at ih ⊢
    rw [List.foldl_append, List.foldl_append, List.foldl_cons, List.foldl_nil, List.foldl_cons,
      List.foldl_nil, get_change, SortedMap.find?_update, ih]

theorem change_disjoint (h : t.Disjoint) (c : κ × Option ν) : (t.change c).Disjoint := by
  obtain ⟨key, value⟩ := c
  cases value with
  | some v => exact disjoint_put h key v
  | none => exact disjoint_delete h key

theorem change_version (c : κ × Option ν) : (t.change c).version = bump t.version := by
  obtain ⟨key, value⟩ := c
  cases value <;> rfl

/- Changes in the body of a loop, none of them ahead of the iterator, and not too many. -/
theorem changes_spec {it : Iterator κ ν} (cs : List (κ × Option ν)) (hdisjoint : t.Disjoint)
    (hfollows : it.Follows t db) (hbehind : ∀ c ∈ cs, c.1 ≤ it.current.1)
    (h0 : 0 ≤ t.version) (hfew : t.version + cs.length < 2 ^ 31) :
    (cs.foldl change t).Disjoint ∧ it.Follows (cs.foldl change t) db ∧
      (cs.foldl change t).version = t.version + cs.length ∧
      ∀ key, it.current.1 < key → (cs.foldl change t).get db key = t.get db key := by
  induction cs generalizing t with
  | nil => exact ⟨hdisjoint, hfollows, (Int.add_zero _).symm, fun _ _ => rfl⟩
  | cons c cs ih =>
    have hc := hbehind c List.mem_cons_self
    rw [List.length_cons] at hfew
    push_cast at hfew
    have hversion : (t.change c).version = t.version + 1 := by
      rw [change_version, bump_eq h0 (by omega)]
    obtain ⟨hd, hf, hlast, hget⟩ := ih (change_disjoint hdisjoint c)
      (Iterator.follows_later hfollows (by omega))
      (fun c' hc' => hbehind c' (List.mem_cons_of_mem _ hc')) (by omega) (by omega)
    refine ⟨hd, hf, ?_, fun key hkey => ?_⟩
    · rw [List.foldl_cons, hlast, hversion, List.length_cons]
      push_cast
      omega
    · rw [List.foldl_cons, hget key hkey, get_change, if_neg (ne_of_gt (lt_of_le_of_lt hc hkey))]

/- Keys that read the same are committed the same. -/
theorem committed_filter_congr {t' : LevelDbTransaction κ ν} (h : t.Disjoint) (h' : t'.Disjoint)
    {P : κ → Bool} (hsame : ∀ key, P key = true → t'.get db key = t.get db key) :
    ((t'.committed db).entries.filter fun e => P e.1) =
      (t.committed db).entries.filter fun e => P e.1 := by
  apply SortedMap.filter_ext
  intro key hkey
  rw [find?_committed h', find?_committed h, hsame key hkey]

end LevelDbTransaction

/- The entry the iterator points to comes first, and then those behind it. -/
theorem Iterator.Points.filter_cons {it : Iterator κ ν} {P : κ → Bool}
    (hpoints : it.Points t db P) (hupper : Iterator.Upper P) (hdisjoint : t.Disjoint)
    (hvalid : it.isValid = true) : ((t.committed db).entries.filter fun e => P e.1) =
      it.current :: (t.committed db).entries.filter fun e => decide (it.current.1 < e.1) := by
  obtain ⟨hP, hget, hleast⟩ := hpoints.1 hvalid
  apply SortedMap.filter_cons hP
  · rw [LevelDbTransaction.find?_committed hdisjoint]
    exact hget
  · intro key hkey
    exact hupper it.current.1 key (le_of_lt hkey) hP
  · intro key value hPkey hfind
    rw [LevelDbTransaction.find?_committed hdisjoint] at hfind
    exact hleast key value hPkey hfind

namespace Session

/- What is left for the loop: the keys of the committed database from here on. -/
theorem scanFrom_spec {body : κ × ν → List (κ × Option ν)}
    (hbehind : ∀ e, ∀ c ∈ body e, c.1 ≤ e.1) (rounds : ℕ) {P : κ → Bool}
    (hupper : Iterator.Upper P) {s : Session κ ν} (hdisjoint : s.txn.Disjoint)
    (hfollows : s.it.Follows s.txn db) (hpoints : s.it.Points s.txn db P)
    (h0 : 0 ≤ s.txn.version)
    (hfew : s.txn.version +
      (((s.txn.committed db).entries.filter fun e => P e.1).flatMap body).length < 2 ^ 31)
    (henough : ((s.txn.committed db).entries.filter fun e => P e.1).length < rounds) :
    ∃ s', scanFrom db body true rounds s =
        some ((s.txn.committed db).entries.filter fun e => P e.1, s') ∧
      s'.txn = (((s.txn.committed db).entries.filter fun e => P e.1).flatMap body).foldl
        LevelDbTransaction.change s.txn := by
  induction rounds generalizing P s with
  | zero => exact absurd henough (Nat.not_lt_zero _)
  | succ rounds ih =>
    unfold scanFrom
    cases hvalid : s.it.isValid with
    | false =>
      have hnil : ((s.txn.committed db).entries.filter fun e => P e.1) = [] := by
        apply SortedMap.filter_nil
        intro key hP
        rw [LevelDbTransaction.find?_committed hdisjoint]
        exact hpoints.2 hvalid key hP
      rw [hnil]
      exact ⟨s, rfl, rfl⟩
    | true =>
      have hcons := hpoints.filter_cons hupper hdisjoint hvalid
      rw [hcons, List.flatMap_cons, List.length_append] at hfew
      push_cast at hfew
      obtain ⟨hdisjoint', hfollows', hversion, hsame⟩ := LevelDbTransaction.changes_spec
        (body s.it.current) hdisjoint hfollows (hbehind s.it.current) h0 (by omega)
      obtain ⟨it', hnext, hpoints', hf⟩ := Iterator.next_spec hdisjoint' hfollows' hvalid
      -- The body does not disturb what is still ahead.
      have hahead := LevelDbTransaction.committed_filter_congr hdisjoint hdisjoint'
        (P := fun k => decide (s.it.current.1 < k)) fun key hkey =>
          hsame key (of_decide_eq_true hkey)
      rw [hcons, List.length_cons] at henough
      obtain ⟨s', hrest, htxn⟩ := ih (P := fun k => decide (s.it.current.1 < k))
        (s := { txn := (body s.it.current).foldl LevelDbTransaction.change s.txn, it := it' })
        (Iterator.upper_gt _) hdisjoint' hf hpoints' (by
          dsimp only
          omega) (by
          dsimp only
          rw [hahead]
          omega) (by
          dsimp only
          rw [hahead]
          omega)
      dsimp only at hrest htxn ⊢
      rw [hahead] at hrest htxn
      refine ⟨s', ?_, ?_⟩
      · rw [if_pos rfl, hnext]
        dsimp only
        rw [hrest, hcons]
        rfl
      · rw [hcons, List.flatMap_cons, List.foldl_append]
        exact htxn

variable [Inhabited κ] [Inhabited ν]

/-- After any calls, a loop over the keys from one on visits exactly what a commit at its
beginning would have put in the database, each key once and in order, also while its body puts
and deletes what the iterator has reached; and what the loop leaves is that with the changes.
All changes together are fewer than 2 ^ 31, and the reads of the loop succeed. -/
theorem scan_visits_the_commit {calls : List (Call κ ν)} {s : Session κ ν}
    (hrun : EventMachine.exec (step db) begin calls = .ok s)
    (body : κ × ν → List (κ × Option ν)) (hbehind : ∀ e, ∀ c ∈ body e, c.1 ≤ e.1) (key : κ)
    (hfew : calls.countP Call.changes +
      (((s.txn.committed db).lowerBound key).flatMap body).length < 2 ^ 31)
    (rounds : ℕ) (henough : ((s.txn.committed db).lowerBound key).length < rounds) :
    (∀ k, (s.txn.committed db).find? k = s.txn.get db k) ∧
      ∃ s', scan db body true rounds s key = some ((s.txn.committed db).lowerBound key, s') ∧
        ∀ k, s'.txn.get db k = ((s.txn.committed db).updates
          (((s.txn.committed db).lowerBound key).flatMap body)).find? k := by
  have hinv := run_inv hrun
  have hversion := hinv.version (by omega)
  rw [SortedMap.lowerBound_eq] at henough hfew ⊢
  refine ⟨LevelDbTransaction.find?_committed hinv.disjoint, ?_⟩
  obtain ⟨it, hseek, hpoints, hfollows, -⟩ :=
    Iterator.seek_spec hinv.disjoint db s.it key
  obtain ⟨s', hscan, htxn⟩ := scanFrom_spec hbehind rounds (Iterator.upper_ge key)
    (s := { s with it := it }) hinv.disjoint hfollows hpoints (by
      dsimp only
      omega) (by
      dsimp only
      omega) henough
  refine ⟨s', ?_, fun k => ?_⟩
  · unfold scan
    rw [hseek]
    exact hscan
  · rw [htxn]
    dsimp only
    exact LevelDbTransaction.get_changes hinv.disjoint _ k

/- A loop that deletes what it visits. -/
theorem deleteUnder_scan : ∃ s s', EventMachine.exec (step twoKeys) begin deleteUnder = .ok s ∧
    scan twoKeys (fun e => [(e.1, none)]) true 3 s 0 = some ([(2, 20), (3, 30)], s') := by
  have hrun : EventMachine.exec (step twoKeys) begin deleteUnder = .ok _ := rfl
  obtain ⟨-, s', hscan, -⟩ := scan_visits_the_commit hrun (fun e => [(e.1, none)]) (by
    intro e c hc
    rw [List.mem_singleton.mp hc]) 0 (by decide) 3 (by decide)
  exact ⟨_, s', rfl, hscan⟩

end Session

end PracticeApps.Firestore
