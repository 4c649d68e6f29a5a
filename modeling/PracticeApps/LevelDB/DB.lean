import PracticeApps.Library.EventMachine
import PracticeApps.LevelDB.History
import PracticeApps.LevelDB.LogRecovery

/-!
# db_impl.cc

The queue of writers, the group that the first of them writes for the others,
how they are woken, and recovery from the log. A writer gives up the mutex while
it writes its group, so that others join the queue, wake up and read in between.
The switch to a new memtable and log is not modelled: `MakeRoomForWrite` finds
room, or it gives an error.
-/

namespace PracticeApps.LevelDB

namespace DBImpl

/- A call of `Write`; without a batch it asks for a new memtable. -/
structure Writer where
  id : ℕ
  batch : Option WriteBatch
  sync : Bool

/- How far the first writer has come; at the end, whether `Sync` has failed. -/
inductive Stage where
  | built
  | logged
  | synced
  | ended (status : Status) (syncError : Bool)

/- The group: `updates`, the number of writers up to `last_writer`, and `options.sync`. -/
structure Group where
  updates : WriteBatch
  count : ℕ
  sync : Bool
  stage : Stage

structure State where
  writers : List Writer
  /-- The first writer has left the loop in which it waits for its turn. -/
  leading : Bool
  group : Option Group
  log : Log.Writer
  mem : MemTable
  lastSequence : ℕ
  bgError : Status
  /-- The waiting calls whose `done` is set, each with its `status`. -/
  done : List (Writer × Status)
  /-- Who was signalled since he last looked. -/
  signalled : List ℕ
  /-- The calls that have returned, each with its status. -/
  returned : List (Writer × Status)
  /-- How many calls there have been. -/
  arrived : ℕ

def init : State where
  writers := []
  leading := false
  group := none
  log := Log.Writer.open []
  mem := MemTable.empty
  lastSequence := 0
  bgError := .ok
  done := []
  signalled := []
  returned := []
  arrived := 0

/-! ### BuildBatchGroup -/

def maxSize (first : WriteBatch) : ℕ :=
  let size := first.byteSize
  if size ≤ 128 <<< 10 then size + (128 <<< 10) else 1 <<< 20

/- The loop. `tmp` is the temporary batch once it is in use; `Write` leaves it empty. -/
def groupLoop (first : WriteBatch) (sync : Bool) (tmp : Option WriteBatch) (size count : ℕ) :
    List Writer → WriteBatch × ℕ
  | [] => (tmp.getD first, count)
  | w :: ws =>
    if w.sync && !sync then (tmp.getD first, count)
    else
      match w.batch with
      | none => groupLoop first sync tmp size (count + 1) ws
      | some batch =>
        if maxSize first < size + batch.byteSize then (tmp.getD first, count)
        else
          groupLoop first sync (some ((tmp.getD (WriteBatch.clear.append first)).append batch))
            (size + batch.byteSize) (count + 1) ws

def buildBatchGroup (first : WriteBatch) (sync : Bool) (rest : List Writer) : WriteBatch × ℕ :=
  groupLoop first sync none first.byteSize 1 rest

/-! ### Write -/

inductive Event where
  /-- A call of `Write` takes its place in the queue, and waits if it is not the first. -/
  | write (w : Writer)
  /-- A waiting call looks whether it is done or the first. -/
  | wake (id : ℕ)
  /-- `MakeRoomForWrite` returns, with this if there is no background error; the first
  writer builds its group and unlocks the mutex. -/
  | makeRoom (room : Status)
  /-- A failure leaves the log in some state. -/
  | addRecord (failure : Option (Status × Log.Writer))
  | sync (status : Status)
  | insertInto
  /-- The first writer locks the mutex again, wakes the others and returns. -/
  | finish

/- An event that is not possible, or a skip list used wrongly. -/
inductive Stuck where
  | disabled
  | memory

/- `push_back`; the first one does not wait. -/
def State.push (s : State) (w : Writer) : State :=
  { s with
    writers := s.writers ++ [w]
    leading := s.leading || s.writers.isEmpty
    arrived := s.arrived + 1 }

/- Behind `cv.Wait`: who is done returns, and the first writer goes on. -/
def State.wake (s : State) (id : ℕ) : State :=
  { s with
    leading := s.leading || (s.writers.take 1).any fun w => w.id == id
    done := s.done.filter fun call => call.1.id != id
    signalled := s.signalled.filter fun i => i != id
    returned := s.returned ++ s.done.filter fun call => call.1.id == id }

/- The loop that takes the group from the queue, and the signal to the new head. -/
def State.pop (s : State) (count : ℕ) (status : Status) : State :=
  let followers := (s.writers.take count).drop 1
  { s with
    writers := s.writers.drop count
    leading := false
    group := none
    done := s.done ++ followers.map (·, status)
    signalled := s.signalled ++ followers.map Writer.id ++
      ((s.writers.drop count).take 1).map Writer.id
    returned := s.returned ++ (s.writers.take 1).map (·, status) }

variable (kByteExtensionTable : UInt8 → UInt32) (userCompare : Bytes → Bytes → Ordering)

def step (s : State) : Event → Except Stuck State
  | .write w => .ok (s.push w)
  | .wake id => .ok (s.wake id)
  | .makeRoom room =>
    match s.leading, s.group, s.writers with
    | true, none, first :: rest =>
      let status := if s.bgError = .ok then room else s.bgError
      match status, first.batch with
      | .ok, some batch =>
        let group := buildBatchGroup batch first.sync rest
        .ok { s with group := some {
          updates := group.1.setSequence (s.lastSequence + 1)
          count := group.2
          sync := first.sync
          stage := .built } }
      | status, _ => .ok (s.pop 1 status)
    | _, _, _ => .error .disabled
  | .addRecord failure =>
    match s.group with
    | some { updates, count, sync, stage := .built } =>
      match failure with
      | none => .ok { s with
          log := s.log.addRecord kByteExtensionTable updates.contents
          group := some { updates, count, sync, stage := if sync then .logged else .synced } }
      | some (status, log) => .ok { s with
          log := log
          group := some { updates, count, sync, stage := .ended status false } }
    | _ => .error .disabled
  | .sync status =>
    match s.group with
    | some { updates, count, sync, stage := .logged } =>
      .ok { s with group := some {
        updates, count, sync
        stage := if status = .ok then .synced else .ended status true } }
    | _ => .error .disabled
  | .insertInto =>
    match s.group with
    | some { updates, count, sync, stage := .synced } =>
      match updates.insertInto userCompare s.mem with
      | (_, none) => .error .memory
      | (status, some mem) =>
        .ok { s with mem := mem, group := some { updates, count, sync, stage := .ended status false } }
    | _ => .error .disabled
  | .finish =>
    match s.group with
    | some { updates, count, stage := .ended status syncError, .. } =>
      -- `RecordBackgroundError` keeps the first error.
      let bgError := if syncError ∧ s.bgError = .ok then status else s.bgError
      let s := { s with lastSequence := s.lastSequence + updates.count, bgError := bgError }
      .ok (s.pop count status)
    | _ => .error .disabled

/- The calls that wait for their condition variable. -/
def State.waiting (s : State) : List Writer :=
  s.done.map Prod.fst ++ if s.leading then s.writers.drop 1 else s.writers

/- The events that can happen; calls are numbered as they come. A waiting call may look
without having been signalled. -/
def Enabled (s : State) : Event → Prop
  | .write w => w.id = s.arrived
  | .wake id => ∃ w ∈ s.waiting, w.id = id
  | .makeRoom room => s.leading = true ∧ s.group = none ∧
      ∀ first ∈ s.writers.head?, first.batch = none → room ≠ .ok
  | .addRecord failure => (∃ g, s.group = some g ∧ g.stage = .built) ∧
      ∀ status log, failure = some (status, log) → status ≠ .ok
  | .sync _ => ∃ g, s.group = some g ∧ g.stage = .logged
  | .insertInto => ∃ g, s.group = some g ∧ g.stage = .synced
  | .finish => ∃ g status syncError, s.group = some g ∧ g.stage = .ended status syncError

/- There is room, and the file does not fail. -/
def Succeeds : Event → Prop
  | .makeRoom room => room = .ok
  | .addRecord failure => failure = none
  | .sync status => status = .ok
  | _ => True

def Smooth (s : State) (e : Event) : Prop := Enabled s e ∧ Succeeds e

/- Nobody comes, and nobody looks who was not signalled. -/
def Prompted (s : State) : Event → Prop
  | .write _ => False
  | .wake id => id ∈ s.signalled
  | _ => True

section Steps
variable {kByteExtensionTable userCompare} {s : State} {updates : WriteBatch} {count : ℕ}
  {sync : Bool}

theorem step_makeRoom {first : Writer} {rest : List Writer} {batch : WriteBatch}
    (hleading : s.leading = true) (hnone : s.group = none) (hwriters : s.writers = first :: rest)
    (hbatch : first.batch = some batch) (hok : s.bgError = .ok) :
    step kByteExtensionTable userCompare s (.makeRoom .ok) = .ok { s with group := some {
      updates := (buildBatchGroup batch first.sync rest).1.setSequence (s.lastSequence + 1)
      count := (buildBatchGroup batch first.sync rest).2
      sync := first.sync
      stage := .built } } := by
  unfold step
  rw [hleading, hnone, hwriters]
  dsimp only
  rw [if_pos hok, hbatch]

theorem step_addRecord (hgroup : s.group = some { updates, count, sync, stage := .built }) :
    step kByteExtensionTable userCompare s (.addRecord none) = .ok { s with
      log := s.log.addRecord kByteExtensionTable updates.contents
      group := some { updates, count, sync, stage := if sync then .logged else .synced } } := by
  unfold step
  rw [hgroup]

theorem step_sync (hgroup : s.group = some { updates, count, sync, stage := .logged }) :
    step kByteExtensionTable userCompare s (.sync .ok) = .ok { s with
      group := some { updates, count, sync, stage := .synced } } := by
  unfold step
  rw [hgroup]
  rfl

theorem step_insertInto (hgroup : s.group = some { updates, count, sync, stage := .synced })
    {status : Status} {mem : MemTable}
    (hinsert : updates.insertInto userCompare s.mem = (status, some mem)) :
    step kByteExtensionTable userCompare s .insertInto = .ok { s with
      mem := mem, group := some { updates, count, sync, stage := .ended status false } } := by
  unfold step
  rw [hgroup]
  dsimp only
  rw [hinsert]

theorem step_finish {status : Status}
    (hgroup : s.group = some { updates, count, sync, stage := .ended status false }) :
    step kByteExtensionTable userCompare s .finish =
      .ok ({ s with lastSequence := s.lastSequence + updates.count }.pop count status) := by
  unfold step
  rw [hgroup]
  rfl

end Steps

/-! ### Get -/

/- At a snapshot, or at the last sequence number. -/
def get (s : State) (snapshot : Option ℕ) (key : Bytes) : Option Lookup :=
  s.mem.get userCompare key (snapshot.getD s.lastSequence)

/-! ### RecoverLogFile -/

structure Options where
  paranoidChecks : Bool
  writeBufferSize : ℕ
  reuseLogs : Bool

/- What the arena and the file system say. -/
structure Env where
  approximateMemoryUsage : MemTable → ℕ
  /-- `BuildTable` of a memtable that is not empty. -/
  buildTable : MemTable → Status
  /-- `GetFileSize` and `NewAppendableFile` succeed. -/
  reopens : Bool

structure Recovery where
  status : Status
  mem : Option MemTable
  maxSequence : ℕ
  compactions : ℕ
  saveManifest : Bool
  /-- The memtables of the tables in `edit`, the newest first. -/
  tables : List MemTable

def Recovery.init : Recovery where
  status := .ok
  mem := none
  maxSequence := 0
  compactions := 0
  saveManifest := false
  tables := []

section Recover
variable (options : Options) (env : Env)

/- `LogReporter::Corruption` -/
def reportStatus (status : Status) (msg : String) : Status :=
  if options.paranoidChecks ∧ status = .ok then .corruption msg else status

/- The reports of the reader between two of its states. -/
def reported (before after : Log.Reader) (status : Status) : Status :=
  (after.drops.drop before.drops.length).foldl
    (fun status drop => reportStatus options status drop.2) status

def maybeIgnoreError (status : Status) : Status := if options.paranoidChecks then status else .ok

/- An empty memtable makes no table. -/
def writeLevel0Table (mem : MemTable) (s : Recovery) : Recovery :=
  if mem.table.seekToFirst = some none then { s with status := .ok }
  else
    let status := env.buildTable mem
    { s with status := status, tables := if status = .ok then mem :: s.tables else s.tables }

/- The loop's body for a record. -/
def recoverRecord (record : Bytes) (s : Recovery) : Option Recovery :=
  if record.length < 12 then
    some { s with status := reportStatus options s.status "log record too small" }
  else
    let batch := WriteBatch.setContents record
    match batch.insertInto userCompare (s.mem.getD MemTable.empty) with
    | (_, none) => none
    | (status, some mem) =>
      let status := maybeIgnoreError options status
      if status ≠ .ok then some { s with status := status, mem := some mem }
      else
        let lastSeq := (batch.sequence + batch.count + (2 ^ 64 - 1)) % 2 ^ 64
        let s := { s with
          status := status, mem := some mem, maxSequence := max s.maxSequence lastSeq }
        if options.writeBufferSize < env.approximateMemoryUsage mem then
          some (writeLevel0Table env mem
            { s with mem := none, compactions := s.compactions + 1, saveManifest := true })
        else some s

/- `while (reader.ReadRecord(&record, &scratch) && status.ok())` -/
def recoverLoop (r : Log.Reader) (s : Recovery) : Option Recovery :=
  match _ : r.readRecord kByteExtensionTable true with
  | (none, r') => some { s with status := reported options r r' s.status }
  | (some record, r') =>
    let status := reported options r r' s.status
    if status ≠ .ok then some { s with status := status }
    else
      match recoverRecord userCompare options env record { s with status := status } with
      | none => none
      | some s => if s.status ≠ .ok then some s else recoverLoop r' s
termination_by r.size
decreasing_by
  exact Log.readFragments_size kByteExtensionTable true [] false _ (by assumption)

/- The database behind `RecoverLogFile`: `mem_` and `log_`, if the log is used again. -/
structure Recovered where
  recovery : Recovery
  reused : Option (MemTable × Log.Writer)

def recoverLogFile (lastLog : Bool) (file : Bytes) : Option Recovered :=
  (recoverLoop kByteExtensionTable userCompare options env (Log.Reader.open file)
      Recovery.init).map fun s =>
    if s.status = .ok ∧ options.reuseLogs ∧ lastLog ∧ s.compactions = 0 ∧ env.reopens then
      { recovery := { s with mem := none }
        reused := some (s.mem.getD MemTable.empty, Log.Writer.open file) }
    else
      match s.mem with
      | none => { recovery := s, reused := none }
      | some mem =>
        { recovery :=
            if s.status = .ok then
              writeLevel0Table env mem { s with mem := none, saveManifest := true }
            else { s with mem := none }
          reused := none }

/- What is read: the memtable that was kept, if there is one, and the tables. -/
def Recovered.layers (r : Recovered) : List MemTable :=
  (r.reused.map Prod.fst).toList ++ r.recovery.tables

/- `Get` behind the recovered updates. A table answers as the memtable it was made from. -/
def Recovered.get (r : Recovered) (key : Bytes) : Option Lookup :=
  getLayers userCompare key r.recovery.maxSequence r.layers

end Recover

end DBImpl

end PracticeApps.LevelDB
