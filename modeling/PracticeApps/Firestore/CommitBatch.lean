import PracticeApps.Firestore.Commit
import PracticeApps.LevelDB.Runs

/-!
# Commits in leveldb

A commit is one batch of the database below. Whoever else writes, a reader sees
all of it or nothing.
-/

namespace PracticeApps.Firestore

open LevelDB

instance : Std.LawfulEqCmp bytewiseCompare :=
  inferInstanceAs (Std.LawfulEqCmp (List.compareLex compare))

/- `std::string` and `Slice` compare like the `BytewiseComparator`. -/
@[reducible] def bytewiseOrder : LinearOrder Bytes := orderOf bytewiseCompare

attribute [local instance] bytewiseOrder

namespace LevelDbTransaction

/- A change in a batch, and as an update. -/
def write (b : WriteBatch) (c : Bytes × Option Bytes) : WriteBatch :=
  match c.2 with
  | some value => b.put c.1 value
  | none => b.delete c.1

def toOp (c : Bytes × Option Bytes) : Op :=
  match c.2 with
  | some value => .put c.1 value
  | none => .delete c.1

/- `Commit` -/
def batch (t : LevelDbTransaction Bytes Bytes) : WriteBatch := t.commit.foldl write WriteBatch.clear

theorem write_holds {b : WriteBatch} {ops : List Op} (h : b.Holds ops) {c : Bytes × Option Bytes}
    (hsmall : (toOp c).Small) (hfew : ops.length + 1 < 2 ^ 31) :
    (write b c).Holds (ops ++ [toOp c]) := by
  obtain ⟨key, value⟩ := c
  cases value with
  | some v => exact WriteBatch.holds_put h hsmall hfew
  | none => exact WriteBatch.holds_delete h hsmall hfew

theorem holds_writes {b : WriteBatch} {ops : List Op} (h : b.Holds ops)
    {cs : List (Bytes × Option Bytes)} (hsmall : ∀ c ∈ cs, (toOp c).Small)
    (hfew : ops.length + cs.length < 2 ^ 31) : (cs.foldl write b).Holds (ops ++ cs.map toOp) := by
  induction cs generalizing b ops with
  | nil =>
    rw [List.map_nil, List.append_nil]
    exact h
  | cons c cs ih =>
    rw [List.length_cons] at hfew
    have hfirst := write_holds h (hsmall c List.mem_cons_self) (by omega)
    have hrest := ih hfirst (fun c' hc' => hsmall c' (List.mem_cons_of_mem _ hc')) (by
      rw [List.length_append, List.length_singleton]
      omega)
    rw [List.append_assoc, List.singleton_append] at hrest
    exact hrest

theorem small_of_fits {op : Op} (h : op.Fits) : op.Small := by
  cases op with
  | put key value => exact ⟨Nat.lt_of_le_of_lt (Nat.le_add_right _ 8) h.1, h.2⟩
  | delete key => exact Nat.lt_of_le_of_lt (Nat.le_add_right _ 8) h

/- What a transaction must meet for its batch to be written. -/
structure Fits (t : LevelDbTransaction Bytes Bytes) : Prop where
  fits : ∀ c ∈ t.commit, (toOp c).Fits
  few : t.commit.length < 2 ^ 31

theorem batch_holds {t : LevelDbTransaction Bytes Bytes} (h : t.Fits) :
    t.batch.Holds (t.commit.map toOp) := by
  have hholds : t.batch.Holds ([] ++ t.commit.map toOp) :=
    holds_writes WriteBatch.holds_clear (fun c hc => small_of_fits (h.fits c hc)) (by
      rw [List.length_nil, Nat.zero_add]
      exact h.few)
  rw [List.nil_append] at hholds
  exact hholds

theorem batch_proper {t : LevelDbTransaction Bytes Bytes} (h : t.Fits) {w : DBImpl.Writer}
    (hw : w.batch = some t.batch) : DBImpl.Proper w ∧ w.ops = t.commit.map toOp := by
  refine DBImpl.proper_of_holds hw (batch_holds h) fun op hop => ?_
  obtain ⟨c, hc, rfl⟩ := List.mem_map.mp hop
  exact h.fits c hc

end LevelDbTransaction

/-! ### Histories -/

/- What `DB::Get` finds when there is nothing but the memtable. -/
def found : Lookup → Option Bytes
  | .value value => some value
  | .deleted => none
  | .miss => none

/-- The map is what a history leaves behind. -/
def Reads (db : SortedMap Bytes Bytes) (history : List Op) : Prop :=
  ∀ key, db.find? key = found (answer bytewiseCompare history key)

theorem answer_concat (history : List Op) (op : Op) (key : Bytes) :
    answer bytewiseCompare (history ++ [op]) key =
      if key = op.key then op.lookup else answer bytewiseCompare history key := by
  unfold answer
  rw [List.reverse_append, List.reverse_singleton, List.singleton_append]
  by_cases hkey : key = op.key
  · have hsame : bytewiseCompare op.key key = .eq := by
      rw [hkey]
      exact Std.ReflCmp.compare_self
    rw [if_pos hkey, List.find?_cons_of_pos (by rw [hsame]; rfl)]
    rfl
  · rw [if_neg hkey, List.find?_cons_of_neg (by
      rw [beq_iff_eq]
      exact fun h => hkey (Std.LawfulEqCmp.eq_of_compare h).symm)]

theorem reads_updates {db : SortedMap Bytes Bytes} {history : List Op} (h : Reads db history)
    (cs : List (Bytes × Option Bytes)) :
    Reads (db.updates cs) (history ++ cs.map LevelDbTransaction.toOp) := by
  induction cs using List.reverseRecOn with
  | nil =>
    rw [List.map_nil, List.append_nil]
    exact h
  | append_singleton cs c ih =>
    intro key
    have hcs := ih key
    unfold SortedMap.updates at hcs ⊢
    obtain ⟨other, value⟩ := c
    rw [List.foldl_append, List.foldl_cons, List.foldl_nil, SortedMap.find?_update, List.map_append,
      List.map_singleton, ← List.append_assoc, answer_concat, hcs]
    cases value with
    | some v =>
      by_cases hkey : key = other <;>
        simp [LevelDbTransaction.toOp, Op.key, Op.lookup, found, hkey]
    | none =>
      by_cases hkey : key = other <;>
        simp [LevelDbTransaction.toOp, Op.key, Op.lookup, found, hkey]

/-! ### Commits among other writers -/

section Commits
variable {kByteExtensionTable : UInt8 → UInt32} {db : SortedMap Bytes Bytes}
  {calls : List (Call Bytes Bytes)} {s : Session Bytes Bytes} {d : DBImpl.State}
  {w : DBImpl.Writer} {arrived finished before after : List DBImpl.Writer}
  {rs : List DBImpl.Record}

/- The queue is served in order: who has left it left with all that came before. -/
theorem served_with (h : DBImpl.Inv kByteExtensionTable bytewiseCompare arrived finished rs d)
    (hwritten : arrived = before ++ w :: after) (hdone : before.length < finished.length) :
    ∃ more, finished = before ++ w :: more := by
  have hupTo : before ++ [w] <+: arrived := by
    rw [hwritten]
    exact ⟨after, (List.append_cons before w after).symm⟩
  have hserved : finished <+: arrived := by
    rw [h.queue]
    exact List.prefix_append _ _
  obtain ⟨more, hmore⟩ := List.prefix_of_prefix_length_le hupTo hserved (by
    rw [List.length_append, List.length_singleton]
    exact hdone)
  exact ⟨more, by rw [← hmore, ← List.append_cons]⟩

theorem served_before (h : DBImpl.Inv kByteExtensionTable bytewiseCompare arrived finished rs d)
    (hwritten : arrived = before ++ w :: after) (hwaits : finished.length ≤ before.length) :
    finished <+: before := by
  have hserved : finished <+: arrived := by
    rw [h.queue]
    exact List.prefix_append _ _
  have hbegin : before <+: arrived := by
    rw [hwritten]
    exact List.prefix_append _ _
  exact List.prefix_of_prefix_length_le hserved hbegin hwaits

/- Calls are different. -/
theorem not_mem_before (h : DBImpl.Inv kByteExtensionTable bytewiseCompare arrived finished rs d)
    (hwritten : arrived = before ++ w :: after) : w ∉ before := by
  have hnodup : (arrived.map DBImpl.Writer.id).Nodup := by
    rw [h.numbered]
    exact List.nodup_range
  rw [hwritten] at hnodup
  have hdisjoint := (List.nodup_append.mp (List.Nodup.of_map _ hnodup)).2.2
  exact fun hbefore => hdisjoint w hbefore w List.mem_cons_self rfl

/- Over a database with one key, a transaction that overwrites it and deletes another. -/
def oneKey : SortedMap Bytes Bytes := SortedMap.empty.updates [([1], some [2])]
def overwrite : List (Call Bytes Bytes) := [.put [1] [3], .delete [2]]
def overwritten : LevelDbTransaction Bytes Bytes := (LevelDbTransaction.init.put [1] [3]).delete [2]
def commitWriter : DBImpl.Writer := { id := 1, batch := some overwritten.batch, sync := false }

/- It joins the group of the writer before it. -/
def joined : List DBImpl.Event :=
  [.write DBImpl.firstWriter, .write commitWriter, .makeRoom .ok, .addRecord none]
def bothReturn : List DBImpl.Event := joined ++ ([.insertInto, .finish] ++ [.wake 1])
def joinedGroup : WriteBatch :=
  (DBImpl.buildBatchGroup (WriteBatch.clear.put [1] [2]) false [commitWriter]).1.setSequence 1
def committing : DBImpl.State where
  writers := [DBImpl.firstWriter, commitWriter]
  leading := true
  group := some { updates := joinedGroup, count := 2, sync := false, stage := .synced }
  log := (Log.Writer.open []).addRecord (fun _ => 0) joinedGroup.contents
  mem := MemTable.empty
  lastSequence := 0
  bgError := .ok
  done := []
  signalled := []
  returned := []
  arrived := 2

theorem exec_joined :
    EventMachine.exec (DBImpl.step (fun _ => 0) bytewiseCompare) DBImpl.init joined =
      .ok committing := rfl

theorem smooth_joined :
    EventMachine.AtEach DBImpl.Smooth (DBImpl.step (fun _ => 0) bytewiseCompare) DBImpl.init
      joined :=
  ⟨⟨rfl, trivial⟩, ⟨rfl, trivial⟩,
    ⟨⟨rfl, rfl, fun _ hfirst hnone => by cases hfirst; cases hnone⟩, rfl⟩,
    ⟨⟨⟨_, rfl, rfl⟩, fun _ _ hfailure => nomatch hfailure⟩, rfl⟩, trivial⟩

theorem reads_oneKey : Reads oneKey (DBImpl.opsOf [DBImpl.firstWriter]) := by
  have hempty : Reads SortedMap.empty [] := fun _ => rfl
  have hreads : Reads oneKey ([] ++ [Op.put [1] [2]]) := reads_updates hempty [([1], some [2])]
  rw [DBImpl.opsOf_singleton, DBImpl.proper_firstWriter.2]
  exact hreads

theorem overwritten_fits : overwritten.Fits where
  fits := by decide
  few := by decide

theorem proper_joined : ∀ w ∈ [DBImpl.firstWriter, commitWriter], DBImpl.Proper w :=
  List.forall_mem_cons.mpr ⟨DBImpl.proper_firstWriter.1,
    List.forall_mem_singleton.mpr (LevelDbTransaction.batch_proper overwritten_fits rfl).1⟩

theorem few_joined :
    (DBImpl.opsOf [DBImpl.firstWriter, commitWriter]).length ≤ kMaxSequenceNumber := by
  have hops : DBImpl.opsOf [DBImpl.firstWriter, commitWriter] =
      DBImpl.firstWriter.ops ++ (commitWriter.ops ++ []) := rfl
  rw [hops, DBImpl.proper_firstWriter.2,
    (LevelDbTransaction.batch_proper overwritten_fits rfl : DBImpl.Proper commitWriter ∧ _).2]
  decide

theorem exec_overwrite : ∃ d,
    EventMachine.AtEach DBImpl.Smooth (DBImpl.step (fun _ => 0) bytewiseCompare) DBImpl.init
        bothReturn ∧
      EventMachine.exec (DBImpl.step (fun _ => 0) bytewiseCompare) DBImpl.init
        bothReturn = .ok d ∧
      d.returned = [(DBImpl.firstWriter, .ok), (commitWriter, .ok)] := by
  obtain ⟨q, finished, rs, hq, h⟩ := DBImpl.run_inv joined
    (DBImpl.inv_init (fun _ => 0) bytewiseCompare) smooth_joined proper_joined few_joined
  rw [exec_joined] at hq
  cases hq
  obtain ⟨mem, hsmooth, hexec⟩ := DBImpl.exec_end h rfl proper_joined few_joined
  have hboth : EventMachine.exec (DBImpl.step (fun _ => 0) bytewiseCompare) DBImpl.init
      bothReturn = EventMachine.exec (DBImpl.step (fun _ => 0) bytewiseCompare) _ [.wake 1] :=
    (EventMachine.exec_append_ok _ exec_joined).trans (EventMachine.exec_append_ok [.wake 1] hexec)
  have hwake := (EventMachine.atEach_append_ok (C := DBImpl.Smooth) [.wake 1] hexec).mpr
    ⟨hsmooth, ⟨⟨commitWriter, List.mem_cons_self, rfl⟩, trivial⟩, trivial⟩
  exact ⟨_, (EventMachine.atEach_append_ok _ exec_joined).mpr ⟨smooth_joined, hwake⟩, hboth, rfl⟩

end Commits

end PracticeApps.Firestore
