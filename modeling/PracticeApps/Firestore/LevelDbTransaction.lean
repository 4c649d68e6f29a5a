import PracticeApps.Library.EventMachine
import PracticeApps.Library.SortedMap
import Mathlib.Algebra.Order.Ring.Nat

/-!
# leveldb_transaction.cc

Pending changes over a database, and the iterator that merges both. Keys and
values are of any types. The iterator of the database is what is left of the
database as it was when the iterator was made; each call comes with whether its
reads of the database succeed.
-/

namespace PracticeApps.Firestore

variable {κ ν : Type} [LinearOrder κ]

/- A failed `HARD_ASSERT`. -/
inductive HardAssert where
  | nextOnInvalid
  | dbIterStatus
  deriving DecidableEq

structure LevelDbTransaction (κ ν : Type) [LinearOrder κ] where
  mutations : SortedMap κ ν
  deletions : SortedMap κ Unit
  version : ℤ

namespace LevelDbTransaction

/- `version_++` of an `int32_t`, which wraps. -/
def bump (version : ℤ) : ℤ := (version + 1).bmod (2 ^ 32)

def init : LevelDbTransaction κ ν where
  mutations := SortedMap.empty
  deletions := SortedMap.empty
  version := 0

def put (t : LevelDbTransaction κ ν) (key : κ) (value : ν) : LevelDbTransaction κ ν where
  deletions := t.deletions.erase key
  mutations := t.mutations.insert key value
  version := bump t.version

def delete (t : LevelDbTransaction κ ν) (key : κ) : LevelDbTransaction κ ν where
  deletions := t.deletions.insert key ()
  mutations := t.mutations.erase key
  version := bump t.version

/- `none` is `NotFound`. -/
def get (t : LevelDbTransaction κ ν) (db : SortedMap κ ν) (key : κ) : Option ν :=
  if t.deletions.contains key then none
  else
    match t.mutations.find? key with
    | some value => some value
    | none => db.find? key

/- The batch that `Commit` writes: the deletions, then the mutations. -/
def commit (t : LevelDbTransaction κ ν) : List (κ × Option ν) :=
  t.deletions.entries.map (fun e => (e.1, none)) ++
    t.mutations.entries.map fun e => (e.1, some e.2)

/- A call of `Put`, or of `Delete`. -/
def change (t : LevelDbTransaction κ ν) (c : κ × Option ν) : LevelDbTransaction κ ν :=
  match c.2 with
  | some value => t.put c.1 value
  | none => t.delete c.1

end LevelDbTransaction

/-! ### The iterator -/

structure Iterator (κ ν : Type) where
  dbIter : List (κ × ν)
  lastVersion : ℤ
  mutationsIter : List (κ × ν)
  current : κ × ν
  isMutation : Bool
  isValid : Bool

namespace Iterator
variable (t : LevelDbTransaction κ ν) (db : SortedMap κ ν)

/- It points to nothing yet. -/
def new [Inhabited κ] [Inhabited ν] : Iterator κ ν where
  dbIter := []
  lastVersion := t.version
  mutationsIter := t.mutations.entries
  current := default
  isMutation := false
  isValid := false

def isDeleted (e : κ × ν) : Bool := t.deletions.contains e.1

/- Past entries that are deleted. -/
def skipDeleted (es : List (κ × ν)) : List (κ × ν) := es.dropWhile (isDeleted t)

/- Which of the two iterators is next, if any. -/
def nextEntry (dbIter mutationsIter : List (κ × ν)) : Option (Bool × (κ × ν)) :=
  match mutationsIter, dbIter with
  | [], [] => none
  | [], e :: _ => some (false, e)
  | m :: _, [] => some (true, m)
  | m :: _, e :: _ => if m.1 ≤ e.1 then some (true, m) else some (false, e)

def updateCurrent (it : Iterator κ ν) : Iterator κ ν :=
  match nextEntry it.dbIter it.mutationsIter with
  | none => { it with isValid := false }
  | some (isMutation, current) =>
    { it with isValid := true, isMutation := isMutation, current := current }

/- `db_iter_->status()` is asserted after the database is read. -/
def seek (it : Iterator κ ν) (reads : Bool) (key : κ) : Except HardAssert (Iterator κ ν) :=
  if reads then
    .ok { it with
      dbIter := skipDeleted t (db.lowerBound key)
      mutationsIter := t.mutations.lowerBound key
      lastVersion := t.version }.updateCurrent
  else .error .dbIterStatus

/- Whether it moved, and the iterator. -/
def syncToTransaction (it : Iterator κ ν) (reads : Bool) :
    Except HardAssert (Bool × Iterator κ ν) :=
  if it.lastVersion < t.version then do
    let sought ← it.seek t db reads it.current.1
    return (sought.isValid && decide (it.current.1 < sought.current.1), sought)
  else .ok (false, it)

def advanceLDB (it : Iterator κ ν) (reads : Bool) : Except HardAssert (Iterator κ ν) :=
  if reads then .ok { it with dbIter := skipDeleted t it.dbIter.tail }
  else .error .dbIterStatus

/- `db_iter_->Valid() && db_iter_->key() == mutations_iter_->first` -/
def shadows (it : Iterator κ ν) : Bool :=
  match it.dbIter, it.mutationsIter with
  | e :: _, m :: _ => decide (e.1 = m.1)
  | _, _ => false

/- The end of `Next()`. A mutation might be shadowing the database; if so, both advance. -/
def advance (it : Iterator κ ν) (reads : Bool) : Except HardAssert (Iterator κ ν) :=
  if it.isMutation then do
    let moved ← if it.shadows then it.advanceLDB t reads else .ok it
    return { moved with mutationsIter := moved.mutationsIter.tail }.updateCurrent
  else do
    let moved ← it.advanceLDB t reads
    return moved.updateCurrent

def next (it : Iterator κ ν) (reads : Bool) : Except HardAssert (Iterator κ ν) :=
  if it.isValid then do
    let synced ← it.syncToTransaction t db reads
    if !synced.1 && synced.2.isValid then synced.2.advance t reads else return synced.2
  else .error .nextOnInvalid

end Iterator

/-! ### A transaction with an iterator -/

structure Session (κ ν : Type) [LinearOrder κ] where
  txn : LevelDbTransaction κ ν
  it : Iterator κ ν

inductive Call (κ ν : Type) where
  | put (key : κ) (value : ν)
  | delete (key : κ)
  | newIterator
  | seek (key : κ) (reads : Bool)
  | next (reads : Bool)

/- `Put` or `Delete` -/
def Call.changes : Call κ ν → Bool
  | put _ _ => true
  | delete _ => true
  | _ => false

namespace Session
variable [Inhabited κ] [Inhabited ν]

def begin : Session κ ν := { txn := LevelDbTransaction.init, it := Iterator.new LevelDbTransaction.init }

def step (db : SortedMap κ ν) (s : Session κ ν) : Call κ ν → Except HardAssert (Session κ ν)
  | .put key value => .ok { s with txn := s.txn.put key value }
  | .delete key => .ok { s with txn := s.txn.delete key }
  | .newIterator => .ok { s with it := Iterator.new s.txn }
  | .seek key reads => do
    let it ← s.it.seek s.txn db reads key
    return { s with it := it }
  | .next reads => do
    let it ← s.it.next s.txn db reads
    return { s with it := it }

/- `for (; it->Valid(); it->Next())` with a body that changes the transaction: the entries it
visits and where it ends, unless an assert fails or it takes more rounds than that. -/
def scanFrom (db : SortedMap κ ν) (body : κ × ν → List (κ × Option ν)) (reads : Bool) :
    ℕ → Session κ ν → Option (List (κ × ν) × Session κ ν)
  | 0, _ => none
  | rounds + 1, s =>
    if s.it.isValid then
      let txn := (body s.it.current).foldl LevelDbTransaction.change s.txn
      match s.it.next txn db reads with
      | .error _ => none
      | .ok it =>
        (scanFrom db body reads rounds { txn := txn, it := it }).map fun r =>
          (s.it.current :: r.1, r.2)
    else some ([], s)

/- The loop behind a `Seek`. -/
def scan (db : SortedMap κ ν) (body : κ × ν → List (κ × Option ν)) (reads : Bool) (rounds : ℕ)
    (s : Session κ ν) (key : κ) : Option (List (κ × ν) × Session κ ν) :=
  match s.it.seek s.txn db reads key with
  | .error _ => none
  | .ok it => scanFrom db body reads rounds { s with it := it }

end Session

end PracticeApps.Firestore
