import PracticeApps.LevelDB.DB

/-!
# Writes and recovery

Whatever the order in which the writers come and take turns: their batches are
applied in the order of the queue, each once and as a whole, and what the log
gives back after a crash is the state after the first so many of them.
-/

namespace PracticeApps.LevelDB

namespace WriteBatch

/- The updates of a batch, as `Iterate` shows them. -/
def collect : Handler (List Op) where
  put key value ops := ops ++ [.put key value]
  delete key ops := ops ++ [.delete key]

def ops (b : WriteBatch) : List Op := (b.iterate collect []).2

theorem foldl_collect (ops seen : List Op) : ops.foldl (Op.apply collect) seen = seen ++ ops := by
  induction ops generalizing seen with
  | nil => exact (List.append_nil seen).symm
  | cons op ops ih =>
    have hop : op.apply collect seen = seen ++ [op] := by cases op <;> rfl
    rw [List.foldl_cons, hop, ih, List.append_assoc, List.singleton_append]

theorem ops_of_holds {b : WriteBatch} {ops : List Op} (h : b.Holds ops) : b.ops = ops := by
  rw [WriteBatch.ops, iterate_holds collect h, foldl_collect, List.nil_append]

theorem length_ops_le {b : WriteBatch} {ops : List Op} (h : b.Holds ops) :
    ops.length ≤ b.byteSize := by
  have hrecords := congrArg List.length h.records
  have hops := Op.length_flatMap_encode ops
  rw [List.length_drop] at hrecords
  unfold byteSize
  omega

end WriteBatch

namespace DBImpl

/- The updates of a call. -/
def Writer.ops (w : Writer) : List Op := (w.batch.map WriteBatch.ops).getD []

/- A call with a batch that was made by `Put`, `Delete` and `Append`, of updates that fit a
memtable. -/
structure Proper (w : Writer) : Prop where
  holds : ∃ batch, w.batch = some batch ∧ batch.Holds w.ops
  fits : ∀ op ∈ w.ops, op.Fits

def opsOf (ws : List Writer) : List Op := ws.flatMap Writer.ops

theorem opsOf_append (ws ws' : List Writer) : opsOf (ws ++ ws') = opsOf ws ++ opsOf ws' :=
  List.flatMap_append

theorem opsOf_singleton (w : Writer) : opsOf [w] = w.ops := List.flatMap_singleton _ _

theorem opsOf_fits {ws : List Writer} (h : ∀ w ∈ ws, Proper w) : ∀ op ∈ opsOf ws, op.Fits := by
  intro op hop
  obtain ⟨w, hw, hmem⟩ := List.mem_flatMap.mp hop
  exact (h w hw).fits op hmem

/-! ### The group -/

theorem maxSize_le (first : WriteBatch) : maxSize first ≤ 2 ^ 20 := by
  unfold maxSize
  dsimp only
  split
  · rename_i hsmall
    have hlimit : 128 <<< 10 = 131072 := rfl
    omega
  · exact Nat.le_refl _

/- The writers so far; `tmp` has been used, if there is more than the first one. -/
theorem groupLoop_spec (first : WriteBatch) (sync : Bool) (soFar : List Writer)
    (tmp : Option WriteBatch) (size count : ℕ) {ws : List Writer} (hws : ∀ w ∈ ws, Proper w)
    (hholds : (tmp.getD first).Holds (opsOf soFar))
    (htmp : (tmp.getD (WriteBatch.clear.append first)).Holds (opsOf soFar))
    (hsize : (opsOf soFar).length ≤ size) :
    ∃ b k, groupLoop first sync tmp size count ws = (b, count + k) ∧ k ≤ ws.length ∧
      b.Holds (opsOf (soFar ++ ws.take k)) := by
  induction ws generalizing soFar tmp size count with
  | nil => exact ⟨_, 0, rfl, Nat.le_refl 0, by rw [List.take_nil, List.append_nil]; exact hholds⟩
  | cons w ws ih =>
    have hstop : ∃ b k, (tmp.getD first, count) = (b, count + k) ∧ k ≤ (w :: ws).length ∧
        b.Holds (opsOf (soFar ++ (w :: ws).take k)) :=
      ⟨_, 0, rfl, Nat.zero_le _, by rw [List.take_zero, List.append_nil]; exact hholds⟩
    obtain ⟨batch, hbatch, hw⟩ := (hws w List.mem_cons_self).holds
    unfold groupLoop
    by_cases hsync : (w.sync && !sync) = true
    · rw [if_pos hsync]
      exact hstop
    · rw [if_neg hsync, hbatch]
      dsimp only
      by_cases hlarge : maxSize first < size + batch.byteSize
      · rw [if_pos hlarge]
        exact hstop
      · rw [if_neg hlarge]
        have hlength := WriteBatch.length_ops_le hw
        have hmax := maxSize_le first
        have hsnoc : opsOf (soFar ++ [w]) = opsOf soFar ++ w.ops := by
          rw [opsOf_append, opsOf_singleton]
        have happend := WriteBatch.holds_append htmp hw (by omega)
        rw [← hsnoc] at happend
        obtain ⟨b, k, hloop, hk, hb⟩ := ih (soFar ++ [w])
          (some ((tmp.getD (WriteBatch.clear.append first)).append batch))
          (size + batch.byteSize) (count + 1) (fun v hv => hws v (List.mem_cons_of_mem _ hv))
          happend happend (by rw [hsnoc, List.length_append]; omega)
        refine ⟨b, k + 1, ?_, ?_, ?_⟩
        · rw [hloop, Nat.add_assoc, Nat.add_comm 1 k]
        · rw [List.length_cons]
          exact Nat.succ_le_succ hk
        · rw [List.take_succ_cons, List.append_cons]
          exact hb

/-- The group holds the updates of the first writers in the queue, in their order. -/
theorem buildBatchGroup_spec {first : Writer} {batch : WriteBatch} {rest : List Writer}
    (hbatch : batch.Holds first.ops) (hrest : ∀ w ∈ rest, Proper w) :
    ∃ b k, buildBatchGroup batch first.sync rest = (b, k) ∧ 0 < k ∧
      k ≤ (first :: rest).length ∧ b.Holds (opsOf ((first :: rest).take k)) := by
  have hclear := WriteBatch.holds_append WriteBatch.holds_clear hbatch
    (by rw [List.length_nil, Nat.zero_add]; exact hbatch.few)
  rw [List.nil_append] at hclear
  obtain ⟨b, k, hloop, hk, hb⟩ := groupLoop_spec batch first.sync [first] none batch.byteSize 1
    hrest (by rw [opsOf_singleton]; exact hbatch) (by rw [opsOf_singleton]; exact hclear)
    (by rw [opsOf_singleton]; exact WriteBatch.length_ops_le hbatch)
  refine ⟨b, 1 + k, hloop, by omega, by rw [List.length_cons]; omega, ?_⟩
  rw [Nat.add_comm, List.take_succ_cons]
  exact hb

/-! ### The log -/

/- A batch in the log, and the writers it was written for. -/
structure Record where
  batch : WriteBatch
  writers : List Writer

def writersOf (rs : List Record) : List Writer := rs.flatMap Record.writers

theorem writersOf_mono {rs rs' : List Record} (h : rs <+: rs') : writersOf rs <+: writersOf rs' := by
  obtain ⟨rest, rfl⟩ := h
  exact ⟨writersOf rest, List.flatMap_append.symm⟩

theorem opsOf_mono {ws ws' : List Writer} (h : ws <+: ws') : opsOf ws <+: opsOf ws' := by
  obtain ⟨rest, rfl⟩ := h
  exact ⟨opsOf rest, (opsOf_append ws rest).symm⟩

/- Consecutive sequence numbers from `n` on. -/
def InOrder : ℕ → List Record → Prop
  | _, [] => True
  | n, r :: rs => r.batch.Holds (opsOf r.writers) ∧ r.batch.sequence = n + 1 ∧
      InOrder (n + (opsOf r.writers).length) rs

theorem InOrder.concat {n : ℕ} {rs : List Record} (h : InOrder n rs) {r : Record}
    (holds : r.batch.Holds (opsOf r.writers))
    (next : r.batch.sequence = n + (opsOf (writersOf rs)).length + 1) :
    InOrder n (rs ++ [r]) := by
  induction rs generalizing n with
  | nil => exact ⟨holds, next, trivial⟩
  | cons q rs ih =>
    obtain ⟨hq, hnext, hrest⟩ := h
    refine ⟨hq, hnext, ih hrest ?_⟩
    rw [next, writersOf, List.flatMap_cons, opsOf_append, List.length_append, writersOf]
    omega

theorem InOrder.take {n : ℕ} {rs : List Record} (h : InOrder n rs) (k : ℕ) :
    InOrder n (rs.take k) := by
  induction rs generalizing n k with
  | nil =>
    rw [List.take_nil]
    trivial
  | cons r rs ih =>
    cases k with
    | zero => trivial
    | succ k => exact ⟨h.1, h.2.1, ih h.2.2 k⟩

section Runs
variable (kByteExtensionTable : UInt8 → UInt32) (userCompare : Bytes → Bytes → Ordering)

structure LogHolds (log : Log.Writer) (rs : List Record) : Prop where
  log : log = (Log.Writer.open []).addRecords kByteExtensionTable
    (rs.map fun r => r.batch.contents)
  order : InOrder 0 rs

theorem LogHolds.addRecord {log : Log.Writer} {rs : List Record}
    (h : LogHolds kByteExtensionTable log rs) (r : Record)
    (holds : r.batch.Holds (opsOf r.writers))
    (next : r.batch.sequence = (opsOf (writersOf rs)).length + 1) :
    LogHolds kByteExtensionTable (log.addRecord kByteExtensionTable r.batch.contents)
      (rs ++ [r]) where
  log := by
    rw [h.log, List.map_append, List.map_singleton]
    unfold Log.Writer.addRecords
    rw [List.foldl_append]
    rfl
  order := h.order.concat holds (by rw [next, Nat.zero_add])

/- The memtable holds the updates of these writers. -/
def MemHolds (s : State) (ws : List Writer) : Prop :=
  Stores userCompare s.mem (entriesFrom 1 (opsOf ws))

/- The writers of the group are the first in the queue. -/
structure GroupHolds (s : State) (g : Group) : Prop where
  leading : s.leading = true
  pos : 0 < g.count
  le : g.count ≤ s.writers.length
  holds : g.updates.Holds (opsOf (s.writers.take g.count))
  next : g.updates.sequence = s.lastSequence + 1

/- How far a group has come decides who is in the log and who is in the memtable. -/
def Progress (s : State) (finished logged : List Writer) : Prop :=
  match s.group with
  | none => logged = finished ∧ MemHolds userCompare s finished
  | some g => GroupHolds s g ∧
    match g.stage with
    | .built => logged = finished ∧ MemHolds userCompare s finished
    | .logged | .synced =>
      logged = finished ++ s.writers.take g.count ∧ MemHolds userCompare s finished
    | .ended status syncError => logged = finished ++ s.writers.take g.count ∧
        MemHolds userCompare s (finished ++ s.writers.take g.count) ∧
        status = .ok ∧ syncError = false

/- Nobody waits who could go on and was not signalled. -/
structure Prompt (s : State) : Prop where
  done : ∀ call ∈ s.done, call.1.id ∈ s.signalled
  front : s.leading = false → ∀ w ∈ s.writers.take 1, w.id ∈ s.signalled

/- After the arrival of `arrived`: those who have left the queue, and what is in the log. -/
structure Inv (arrived finished : List Writer) (rs : List Record) (s : State) : Prop where
  queue : arrived = finished ++ s.writers
  arrivals : s.arrived = arrived.length
  numbered : arrived.map Writer.id = List.range arrived.length
  returned : (s.returned ++ s.done).Perm (finished.map (·, .ok))
  lastSequence : s.lastSequence = (opsOf finished).length
  bgError : s.bgError = .ok
  leader : s.leading = true → s.writers ≠ []
  prompt : Prompt s
  log : LogHolds kByteExtensionTable s.log rs
  progress : Progress userCompare s finished (writersOf rs)

def arrivals : Event → List Writer
  | .write w => [w]
  | _ => []

/- The calls of `Write` in a run. -/
def written (es : List Event) : List Writer := es.flatMap arrivals

theorem inv_init : Inv kByteExtensionTable userCompare [] [] [] init where
  queue := rfl
  arrivals := rfl
  numbered := rfl
  returned := List.Perm.nil
  lastSequence := rfl
  bgError := rfl
  leader := fun h => Bool.noConfusion h
  prompt := ⟨fun _ h => absurd h List.not_mem_nil, fun _ _ h => absurd h List.not_mem_nil⟩
  log := ⟨rfl, trivial⟩
  progress := ⟨rfl, stores_empty⟩

/-! ### The queue -/

theorem prompt_push {s : State} (h : Prompt s) (w : Writer) : Prompt (s.push w) where
  done := h.done
  front := by
    unfold State.push
    dsimp only
    intro hwaits v hv
    obtain ⟨hleading, hqueue⟩ := Bool.or_eq_false_iff.mp hwaits
    cases hwriters : s.writers with
    | nil =>
      rw [hwriters] at hqueue
      cases hqueue
    | cons first rest =>
      rw [hwriters] at hv
      apply h.front hleading v
      rw [hwriters]
      exact hv

theorem prompt_wake {s : State} (h : Prompt s) (id : ℕ) : Prompt (s.wake id) where
  done := by
    intro call hcall
    obtain ⟨hmem, hother⟩ := List.mem_filter.mp hcall
    exact List.mem_filter.mpr ⟨h.done call hmem, hother⟩
  front := by
    unfold State.wake
    dsimp only
    intro hwaits w hw
    obtain ⟨hleading, hother⟩ := Bool.or_eq_false_iff.mp hwaits
    refine List.mem_filter.mpr ⟨h.front hleading w hw, ?_⟩
    have hne := List.any_eq_false.mp hother w hw
    exact bne_iff_ne.mpr fun hid => hne (beq_iff_eq.mpr hid)

/- Who is done is signalled, and so is the new head of the queue. -/
theorem prompt_pop {s : State} (h : Prompt s) (count : ℕ) (status : Status) :
    Prompt (s.pop count status) where
  done := by
    intro call hcall
    refine List.mem_append_left _ ?_
    rcases List.mem_append.mp hcall with hcall | hcall
    · exact List.mem_append_left _ (h.done call hcall)
    · obtain ⟨w, hw, rfl⟩ := List.mem_map.mp hcall
      exact List.mem_append_right _ (List.mem_map_of_mem hw)
  front := fun _ _ hw => List.mem_append_right _ (List.mem_map_of_mem hw)

theorem perm_wake (s : State) (id : ℕ) :
    ((s.wake id).returned ++ (s.wake id).done).Perm (s.returned ++ s.done) := by
  unfold State.wake
  dsimp only
  rw [List.append_assoc]
  exact (List.filter_append_perm (fun call => call.1.id == id) s.done).append_left _

theorem perm_pop (s : State) {count : ℕ} (hpos : 0 < count) (status : Status) :
    ((s.pop count status).returned ++ (s.pop count status).done).Perm
      ((s.returned ++ s.done) ++ (s.writers.take count).map (·, status)) := by
  have hsplit : s.writers.take count = s.writers.take 1 ++ (s.writers.take count).drop 1 := by
    have hone : (s.writers.take count).take 1 = s.writers.take 1 := by
      rw [List.take_take, Nat.min_eq_left hpos]
    rw [← hone, List.take_append_drop]
  have hparts : (s.writers.take count).map (fun w => (w, status)) =
      (s.writers.take 1).map (fun w => (w, status)) ++
        ((s.writers.take count).drop 1).map (fun w => (w, status)) := by
    rw [← List.map_append, ← hsplit]
  unfold State.pop
  dsimp only
  rw [hparts, List.append_assoc, List.append_assoc]
  exact List.Perm.append_left _ (List.perm_append_comm_assoc _ _ _)

variable {kByteExtensionTable userCompare} {arrived finished : List Writer}
  {rs : List Record} {s : State}

/- A step of the group leaves the queue and the calls alone. -/
theorem Inv.regroup (h : Inv kByteExtensionTable userCompare arrived finished rs s)
    {log : Log.Writer} {mem : MemTable} {g : Group} {rs' : List Record}
    (hlog : LogHolds kByteExtensionTable log rs')
    (hprogress : Progress userCompare { s with log := log, mem := mem, group := some g } finished
      (writersOf rs')) :
    Inv kByteExtensionTable userCompare arrived finished rs'
      { s with log := log, mem := mem, group := some g } where
  queue := h.queue
  arrivals := h.arrivals
  numbered := h.numbered
  returned := h.returned
  lastSequence := h.lastSequence
  bgError := h.bgError
  leader := h.leader
  prompt := ⟨h.prompt.done, h.prompt.front⟩
  log := hlog
  progress := hprogress

theorem GroupHolds.restage {g : Group} (h : GroupHolds s g) (log : Log.Writer) (mem : MemTable)
    (stage : Stage) : GroupHolds
      { s with log := log, mem := mem, group := some { g with stage := stage } }
      { g with stage := stage } where
  leading := h.leading
  pos := h.pos
  le := h.le
  holds := h.holds
  next := h.next

/- What the log and the memtable hold, whatever the group is doing. -/
theorem log_and_mem (h : Inv kByteExtensionTable userCompare arrived finished rs s) :
    ∃ k l, writersOf rs = finished ++ s.writers.take k ∧
      MemHolds userCompare s (finished ++ s.writers.take l) := by
  have hprogress := h.progress
  unfold Progress at hprogress
  have hnobody : finished ++ s.writers.take 0 = finished := by
    rw [List.take_zero, List.append_nil]
  cases hgroup : s.group with
  | none =>
    rw [hgroup] at hprogress
    exact ⟨0, 0, by rw [hnobody]; exact hprogress.1, by rw [hnobody]; exact hprogress.2⟩
  | some g =>
    rw [hgroup] at hprogress
    obtain ⟨-, hstage⟩ := hprogress
    cases hg : g.stage with
    | built =>
      rw [hg] at hstage
      exact ⟨0, 0, by rw [hnobody]; exact hstage.1, by rw [hnobody]; exact hstage.2⟩
    | logged =>
      rw [hg] at hstage
      exact ⟨g.count, 0, hstage.1, by rw [hnobody]; exact hstage.2⟩
    | synced =>
      rw [hg] at hstage
      exact ⟨g.count, 0, hstage.1, by rw [hnobody]; exact hstage.2⟩
    | ended status syncError =>
      rw [hg] at hstage
      exact ⟨g.count, g.count, hstage.1, hstage.2.1⟩

/- A newcomer is behind the group. -/
theorem take_queue {g : Group} (h : GroupHolds s g) (w : Writer) :
    (s.writers ++ [w]).take g.count = s.writers.take g.count :=
  List.take_append_of_le_length h.le

theorem write_inv (h : Inv kByteExtensionTable userCompare arrived finished rs s) {w : Writer}
    (hid : w.id = s.arrived) :
    Inv kByteExtensionTable userCompare (arrived ++ [w]) finished rs (s.push w) where
  queue := by
    rw [h.queue, List.append_assoc]
    rfl
  arrivals := by
    rw [List.length_append, ← h.arrivals]
    rfl
  numbered := by
    rw [List.map_append, List.length_append, h.numbered, List.map_singleton, hid, h.arrivals]
    exact List.range_succ.symm
  returned := h.returned
  lastSequence := h.lastSequence
  bgError := h.bgError
  leader := fun _ => List.append_ne_nil_of_right_ne_nil _ (List.cons_ne_nil w [])
  prompt := prompt_push h.prompt w
  log := h.log
  progress := by
    have hprogress := h.progress
    unfold State.push
    unfold Progress at hprogress ⊢
    dsimp only
    cases hgroup : s.group with
    | none =>
      rw [hgroup] at hprogress
      exact hprogress
    | some g =>
      rw [hgroup] at hprogress
      obtain ⟨hg, hstage⟩ := hprogress
      have htake := take_queue hg w
      dsimp only at hstage ⊢
      rw [htake]
      refine ⟨⟨?_, hg.pos, ?_, ?_, hg.next⟩, hstage⟩
      · dsimp only
        rw [hg.leading, Bool.true_or]
      · dsimp only
        rw [List.length_append]
        exact Nat.le_add_right_of_le hg.le
      · dsimp only
        rw [htake]
        exact hg.holds

theorem wake_inv (h : Inv kByteExtensionTable userCompare arrived finished rs s) (id : ℕ) :
    Inv kByteExtensionTable userCompare arrived finished rs (s.wake id) where
  queue := h.queue
  arrivals := h.arrivals
  numbered := h.numbered
  returned := (perm_wake s id).trans h.returned
  lastSequence := h.lastSequence
  bgError := h.bgError
  leader := by
    unfold State.wake
    dsimp only
    intro hleading hempty
    rcases Bool.or_eq_true_iff.mp hleading with hleading | hfirst
    · exact h.leader hleading hempty
    · rw [hempty] at hfirst
      cases hfirst
  prompt := prompt_wake h.prompt id
  log := h.log
  progress := by
    have hprogress := h.progress
    unfold State.wake
    unfold Progress at hprogress ⊢
    dsimp only
    cases hgroup : s.group with
    | none =>
      rw [hgroup] at hprogress
      exact hprogress
    | some g =>
      rw [hgroup] at hprogress
      obtain ⟨hg, hstage⟩ := hprogress
      refine ⟨⟨?_, hg.pos, hg.le, hg.holds, hg.next⟩, hstage⟩
      dsimp only
      rw [hg.leading, Bool.true_or]

theorem makeRoom_inv (h : Inv kByteExtensionTable userCompare arrived finished rs s)
    (henabled : Enabled s (.makeRoom .ok)) (hproper : ∀ w ∈ arrived, Proper w)
    (hfew : (opsOf arrived).length ≤ kMaxSequenceNumber) :
    ∃ g, step kByteExtensionTable userCompare s (.makeRoom .ok) =
        .ok { s with group := some g } ∧ g.stage = .built ∧
      Inv kByteExtensionTable userCompare arrived finished rs { s with group := some g } := by
  obtain ⟨hleading, hnone, -⟩ := henabled
  obtain ⟨first, rest, hwriters⟩ := List.exists_cons_of_ne_nil (h.leader hleading)
  have hin : ∀ w ∈ first :: rest, Proper w := by
    intro w hw
    apply hproper w
    rw [h.queue, hwriters]
    exact List.mem_append_right _ hw
  obtain ⟨batch, hbatch, hholds⟩ := (hin first List.mem_cons_self).holds
  obtain ⟨b, k, hbuild, hpos, hk, hb⟩ := buildBatchGroup_spec hholds
    fun w hw => hin w (List.mem_cons_of_mem _ hw)
  have hprogress := h.progress
  unfold Progress at hprogress
  rw [hnone] at hprogress
  have hsmall : s.lastSequence + 1 < 2 ^ 64 := by
    have hmax : kMaxSequenceNumber = 2 ^ 56 - 1 := by decide
    rw [h.queue, opsOf_append, List.length_append, ← h.lastSequence] at hfew
    omega
  refine ⟨_, step_makeRoom hleading hnone hwriters hbatch h.bgError, rfl, ?_⟩
  rw [hbuild]
  refine h.regroup h.log ⟨⟨hleading, hpos, ?_, ?_, WriteBatch.sequence_setSequence b hsmall⟩,
    hprogress⟩
  · dsimp only
    rw [hwriters]
    exact hk
  · dsimp only
    rw [hwriters]
    exact WriteBatch.holds_setSequence hb _

theorem addRecord_inv (h : Inv kByteExtensionTable userCompare arrived finished rs s)
    {updates : WriteBatch} {count : ℕ} {sync : Bool}
    (hgroup : s.group = some { updates, count, sync, stage := .built }) :
    Inv kByteExtensionTable userCompare arrived finished
      (rs ++ [{ batch := updates, writers := s.writers.take count }]) { s with
        log := s.log.addRecord kByteExtensionTable updates.contents
        group := some { updates, count, sync, stage := if sync then .logged else .synced } } := by
  have hprogress := h.progress
  unfold Progress at hprogress
  rw [hgroup] at hprogress
  obtain ⟨hg, hlogged, hmem⟩ := hprogress
  have hrecords : writersOf (rs ++ [{ batch := updates, writers := s.writers.take count }]) =
      finished ++ s.writers.take count := by
    rw [writersOf, List.flatMap_append, List.flatMap_singleton, ← writersOf, hlogged]
  refine h.regroup ?_ ⟨hg.restage _ _ _, ?_⟩
  · refine h.log.addRecord kByteExtensionTable ⟨updates, s.writers.take count⟩ hg.holds ?_
    rw [hlogged, ← h.lastSequence]
    exact hg.next
  · cases sync <;> exact ⟨hrecords, hmem⟩

theorem sync_inv (h : Inv kByteExtensionTable userCompare arrived finished rs s)
    {updates : WriteBatch} {count : ℕ} {sync : Bool}
    (hgroup : s.group = some { updates, count, sync, stage := .logged }) :
    Inv kByteExtensionTable userCompare arrived finished rs { s with
      group := some { updates, count, sync, stage := .synced } } := by
  have hprogress := h.progress
  unfold Progress at hprogress
  rw [hgroup] at hprogress
  obtain ⟨hg, hlogged, hmem⟩ := hprogress
  exact h.regroup h.log ⟨hg.restage _ _ _, hlogged, hmem⟩

theorem finish_inv (h : Inv kByteExtensionTable userCompare arrived finished rs s)
    {updates : WriteBatch} {count : ℕ} {sync : Bool} {status : Status} {syncError : Bool}
    (hgroup : s.group = some { updates, count, sync, stage := .ended status syncError }) :
    ∃ r, step kByteExtensionTable userCompare s .finish = .ok r ∧
      r = { s with lastSequence := s.lastSequence + updates.count }.pop count status ∧
      0 < count ∧ count ≤ s.writers.length ∧
      Inv kByteExtensionTable userCompare arrived (finished ++ s.writers.take count) rs r := by
  have hprogress := h.progress
  unfold Progress at hprogress
  rw [hgroup] at hprogress
  obtain ⟨hg, hlogged, hmem, hok, hnoError⟩ := hprogress
  subst hok hnoError
  refine ⟨_, step_finish hgroup, rfl, hg.pos, hg.le, ?_, h.arrivals, h.numbered, ?_, ?_, h.bgError,
    ?_, ?_, h.log, hlogged, hmem⟩
  · show arrived = finished ++ s.writers.take count ++ s.writers.drop count
    rw [List.append_assoc, List.take_append_drop]
    exact h.queue
  · refine (perm_pop _ hg.pos _).trans ?_
    rw [List.map_append]
    exact h.returned.append_right _
  · show s.lastSequence + updates.count = _
    rw [h.lastSequence, hg.holds.count, opsOf_append, List.length_append]
  · exact fun hleading => Bool.noConfusion hleading
  · have hprompt : Prompt { s with lastSequence := s.lastSequence + updates.count } :=
      ⟨h.prompt.done, h.prompt.front⟩
    exact prompt_pop hprompt count .ok

/- Everything in the log has arrived, and whoever has left the queue is in the log. -/
theorem logged_prefix (h : Inv kByteExtensionTable userCompare arrived finished rs s) :
    finished <+: writersOf rs ∧ writersOf rs <+: arrived := by
  obtain ⟨k, -, hlogged, -⟩ := log_and_mem h
  rw [h.queue, hlogged]
  exact ⟨List.prefix_append _ _, (List.prefix_append_right_inj _).mpr (List.take_prefix _ _)⟩

variable [Std.TransCmp userCompare]

theorem insertInto_inv (h : Inv kByteExtensionTable userCompare arrived finished rs s)
    {updates : WriteBatch} {count : ℕ} {sync : Bool}
    (hgroup : s.group = some { updates, count, sync, stage := .synced })
    (hproper : ∀ w ∈ arrived, Proper w) (hfew : (opsOf arrived).length ≤ kMaxSequenceNumber) :
    ∃ mem, updates.insertInto userCompare s.mem = (.ok, some mem) ∧
      Inv kByteExtensionTable userCompare arrived finished rs { s with
        mem := mem, group := some { updates, count, sync, stage := .ended .ok false } } := by
  have hprogress := h.progress
  unfold Progress at hprogress
  rw [hgroup] at hprogress
  obtain ⟨hg, hlogged, hmem⟩ := hprogress
  have hqueue := h.queue
  rw [← List.take_append_drop count s.writers, ← List.append_assoc] at hqueue
  have hfits : ∀ op ∈ opsOf (s.writers.take count), op.Fits := by
    apply opsOf_fits
    intro w hw
    apply hproper w
    rw [h.queue]
    exact List.mem_append_right _ (List.mem_of_mem_take hw)
  have htotal : 0 + (opsOf finished ++ opsOf (s.writers.take count)).length ≤
      kMaxSequenceNumber := by
    rw [hqueue, opsOf_append, List.length_append, opsOf_append] at hfew
    omega
  have hnext : updates.sequence = 0 + (opsOf finished).length + 1 := by
    rw [Nat.zero_add, ← h.lastSequence]
    exact hg.next
  obtain ⟨mem', hinsert, hmem'⟩ := insertInto_spec hmem hg.holds hnext hfits htotal
  refine ⟨mem', hinsert, h.regroup h.log ⟨hg.restage _ _ _, hlogged, ?_, rfl, rfl⟩⟩
  unfold MemHolds
  rw [opsOf_append]
  exact hmem'

/-- What one event does. -/
theorem step_inv (h : Inv kByteExtensionTable userCompare arrived finished rs s) (e : Event)
    (hsmooth : Smooth s e) (hproper : ∀ w ∈ arrived ++ arrivals e, Proper w)
    (hfew : (opsOf (arrived ++ arrivals e)).length ≤ kMaxSequenceNumber) :
    ∃ r more moreRecords, step kByteExtensionTable userCompare s e = .ok r ∧
      Inv kByteExtensionTable userCompare (arrived ++ arrivals e) (finished ++ more)
        (rs ++ moreRecords) r := by
  obtain ⟨henabled, hsucceeds⟩ := hsmooth
  cases e with
  | write w =>
    refine ⟨_, [], [], rfl, ?_⟩
    rw [List.append_nil, List.append_nil]
    exact write_inv h henabled
  | wake id =>
    have hsame : arrived ++ arrivals (.wake id) = arrived := List.append_nil arrived
    refine ⟨_, [], [], rfl, ?_⟩
    rw [hsame, List.append_nil, List.append_nil]
    exact wake_inv h id
  | makeRoom room =>
    have hok : room = .ok := hsucceeds
    subst hok
    have hsame : arrived ++ arrivals (.makeRoom .ok) = arrived := List.append_nil arrived
    rw [hsame] at hproper hfew ⊢
    obtain ⟨g, hstep, -, hr⟩ := makeRoom_inv h henabled hproper hfew
    exact ⟨_, [], [], hstep, by rw [List.append_nil, List.append_nil]; exact hr⟩
  | addRecord failure =>
    have hnone : failure = none := hsucceeds
    subst hnone
    have hsame : arrived ++ arrivals (.addRecord none) = arrived := List.append_nil arrived
    rw [hsame]
    obtain ⟨⟨⟨updates, count, sync, stage⟩, hgroup, hstage⟩, -⟩ := henabled
    dsimp only at hstage
    subst hstage
    refine ⟨_, [], [⟨updates, s.writers.take count⟩], step_addRecord hgroup, ?_⟩
    rw [List.append_nil finished]
    exact addRecord_inv h hgroup
  | sync status =>
    have hok : status = .ok := hsucceeds
    subst hok
    have hsame : arrived ++ arrivals (.sync .ok) = arrived := List.append_nil arrived
    rw [hsame]
    obtain ⟨⟨updates, count, sync, stage⟩, hgroup, hstage⟩ := henabled
    dsimp only at hstage
    subst hstage
    refine ⟨_, [], [], step_sync hgroup, ?_⟩
    rw [List.append_nil, List.append_nil]
    exact sync_inv h hgroup
  | insertInto =>
    have hsame : arrived ++ arrivals .insertInto = arrived := List.append_nil arrived
    rw [hsame] at hproper hfew ⊢
    obtain ⟨⟨updates, count, sync, stage⟩, hgroup, hstage⟩ := henabled
    dsimp only at hstage
    subst hstage
    obtain ⟨mem, hinsert, hr⟩ := insertInto_inv h hgroup hproper hfew
    exact ⟨_, [], [], step_insertInto hgroup hinsert,
      by rw [List.append_nil, List.append_nil]; exact hr⟩
  | finish =>
    have hsame : arrived ++ arrivals .finish = arrived := List.append_nil arrived
    rw [hsame]
    obtain ⟨⟨updates, count, sync, stage⟩, status, syncError, hgroup, hstage⟩ := henabled
    dsimp only at hstage
    subst hstage
    obtain ⟨r, hstep, -, -, -, hr⟩ := finish_inv h hgroup
    exact ⟨r, s.writers.take count, [], hstep, by rw [List.append_nil rs]; exact hr⟩

/-- What a run does. -/
theorem run_inv (es : List Event)
    (h : Inv kByteExtensionTable userCompare arrived finished rs s)
    (hsmooth : EventMachine.AtEach Smooth (step kByteExtensionTable userCompare) s es)
    (hproper : ∀ w ∈ arrived ++ written es, Proper w)
    (hfew : (opsOf (arrived ++ written es)).length ≤ kMaxSequenceNumber) :
    ∃ r more moreRecords, EventMachine.exec (step kByteExtensionTable userCompare) s es = .ok r ∧
      Inv kByteExtensionTable userCompare (arrived ++ written es) (finished ++ more)
        (rs ++ moreRecords) r := by
  induction es generalizing arrived finished rs s with
  | nil =>
    refine ⟨s, [], [], rfl, ?_⟩
    rw [written, List.flatMap_nil, List.append_nil, List.append_nil, List.append_nil]
    exact h
  | cons e es ih =>
    rw [written, List.flatMap_cons, ← List.append_assoc] at hproper hfew ⊢
    obtain ⟨q, more, moreRecords, hstep, hq⟩ := step_inv h e hsmooth.1
      (fun w hw => hproper w (List.mem_append_left _ hw)) (by
        rw [opsOf_append, List.length_append] at hfew
        omega)
    obtain ⟨-, hrest⟩ := (EventMachine.atEach_cons_ok es hstep).mp hsmooth
    obtain ⟨r, more', moreRecords', hexec, hr⟩ := ih hq hrest hproper hfew
    refine ⟨r, more ++ more', moreRecords ++ moreRecords', ?_, ?_⟩
    · rw [EventMachine.exec_cons_ok es hstep]
      exact hexec
    · rw [← List.append_assoc, ← List.append_assoc]
      exact hr

/-- A reader sees the writers that have left the queue, whatever the group is doing. -/
theorem get_inv (h : Inv kByteExtensionTable userCompare arrived finished rs s)
    (hfew : (opsOf arrived).length ≤ kMaxSequenceNumber) {key : Bytes}
    (hkey : key.length + 8 < 2 ^ 32) {snapshot : ℕ} (hsnapshot : snapshot ≤ s.lastSequence) :
    s.mem.get userCompare key snapshot =
      some (answer userCompare ((opsOf finished).take snapshot) key) := by
  obtain ⟨-, l, -, hmem⟩ := log_and_mem h
  have hseq : snapshot ≤ kMaxSequenceNumber := by
    rw [h.queue, opsOf_append, List.length_append, ← h.lastSequence] at hfew
    omega
  rw [get_history hmem hkey hseq, Nat.sub_zero, opsOf_append,
    List.take_append_of_le_length (by rw [← h.lastSequence]; exact hsnapshot)]

end Runs

end DBImpl

end PracticeApps.LevelDB
