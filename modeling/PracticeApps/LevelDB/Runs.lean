import PracticeApps.LevelDB.Recovery

/-!
# Whole runs

What readers see while writers come, take turns and are woken, what the log
gives back after a crash, and that the signals suffice for everybody to return.
-/

namespace PracticeApps.LevelDB

namespace DBImpl
variable {kByteExtensionTable : UInt8 → UInt32} {userCompare : Bytes → Bytes → Ordering}
  {arrived finished : List Writer} {rs : List Record} {s : State}

/-! ### Turns -/

/- The calls that have not returned. -/
def State.pending (s : State) : ℕ := s.writers.length + s.done.length

/- Steps that need no arrival, and no call that looks without having been signalled. -/
structure Turn (kByteExtensionTable : UInt8 → UInt32) (userCompare : Bytes → Bytes → Ordering)
    (arrived : List Writer) (s r : State) (es : List Event) : Prop where
  smooth : EventMachine.AtEach Smooth (step kByteExtensionTable userCompare) s es
  prompted : EventMachine.AtEach Prompted (step kByteExtensionTable userCompare) s es
  exec : EventMachine.exec (step kByteExtensionTable userCompare) s es = .ok r
  written : written es = []
  inv : ∃ finished rs, Inv kByteExtensionTable userCompare arrived finished rs r

theorem Turn.stay (h : Inv kByteExtensionTable userCompare arrived finished rs s) :
    Turn kByteExtensionTable userCompare arrived s s [] where
  smooth := trivial
  prompted := trivial
  exec := rfl
  written := rfl
  inv := ⟨finished, rs, h⟩

theorem Turn.before {e : Event} {q r : State} {es : List Event}
    (h : Turn kByteExtensionTable userCompare arrived q r es) (hsmooth : Smooth s e)
    (hprompted : Prompted s e) (hstep : step kByteExtensionTable userCompare s e = .ok q) :
    Turn kByteExtensionTable userCompare arrived s r (e :: es) where
  smooth := (EventMachine.atEach_cons_ok es hstep).mpr ⟨hsmooth, h.smooth⟩
  prompted := (EventMachine.atEach_cons_ok es hstep).mpr ⟨hprompted, h.prompted⟩
  exec := by
    rw [EventMachine.exec_cons_ok es hstep]
    exact h.exec
  written := by
    have hnone : arrivals e = [] := by
      cases e with
      | write w => exact hprompted.elim
      | _ => rfl
    have hrest := h.written
    unfold DBImpl.written at hrest ⊢
    rw [List.flatMap_cons, hnone, List.nil_append, hrest]
  inv := h.inv

theorem Turn.append {q r : State} {es fs : List Event}
    (h : Turn kByteExtensionTable userCompare arrived s q es)
    (h' : Turn kByteExtensionTable userCompare arrived q r fs) :
    Turn kByteExtensionTable userCompare arrived s r (es ++ fs) := by
  induction es generalizing s with
  | nil =>
    have hsame := h.exec
    cases hsame
    exact h'
  | cons e es ih =>
    have hexec := h.exec
    cases hstep : step kByteExtensionTable userCompare s e with
    | error stuck =>
      rw [EventMachine.exec_cons_error es hstep] at hexec
      cases hexec
    | ok p =>
      rw [EventMachine.exec_cons_ok es hstep] at hexec
      obtain ⟨hsmooth, hsmooths⟩ := (EventMachine.atEach_cons_ok es hstep).mp h.smooth
      obtain ⟨hprompted, hprompteds⟩ := (EventMachine.atEach_cons_ok es hstep).mp h.prompted
      have hwritten := h.written
      unfold DBImpl.written at hwritten
      rw [List.flatMap_cons] at hwritten
      have hrest : Turn kByteExtensionTable userCompare arrived p q es :=
        ⟨hsmooths, hprompteds, hexec, (List.append_eq_nil_iff.mp hwritten).2, h.inv⟩
      exact (ih hrest).before hsmooth hprompted hstep

/- A pop takes the leader away, and nobody else. -/
theorem pending_pop {count : ℕ} (hpos : 0 < count) (hle : count ≤ s.writers.length)
    (status : Status) : (s.pop count status).pending < s.pending := by
  unfold State.pending State.pop
  dsimp only
  rw [List.length_append, List.length_map, List.length_drop, List.length_drop,
    List.length_take, Nat.min_eq_left hle]
  omega

theorem pending_wake (s : State) (id : ℕ) : (s.wake id).pending ≤ s.pending :=
  Nat.add_le_add_left (List.length_filter_le _ _) _

theorem turn_ended (h : Inv kByteExtensionTable userCompare arrived finished rs s)
    {updates : WriteBatch} {count : ℕ} {sync : Bool} {status : Status} {syncError : Bool}
    (hgroup : s.group = some { updates, count, sync, stage := .ended status syncError }) :
    ∃ r es, Turn kByteExtensionTable userCompare arrived s r es ∧ r.pending < s.pending := by
  have hsmooth : Smooth s .finish := ⟨⟨_, status, syncError, hgroup, rfl⟩, trivial⟩
  obtain ⟨r, hstep, rfl, hpos, hle, hr⟩ := finish_inv h hgroup
  exact ⟨_, _, (Turn.stay hr).before hsmooth trivial hstep, pending_pop hpos hle status⟩

/- The last turn-taker of all: somebody who is done looks. -/
theorem turn_done (h : Inv kByteExtensionTable userCompare arrived finished rs s)
    {call : Writer × Status} (hcall : call ∈ s.done) :
    ∃ r es, Turn kByteExtensionTable userCompare arrived s r es ∧ r.pending < s.pending := by
  have hwaits : call.1 ∈ s.waiting := List.mem_append_left _ (List.mem_map_of_mem hcall)
  have hsmooth : Smooth s (.wake call.1.id) := ⟨⟨call.1, hwaits, rfl⟩, trivial⟩
  refine ⟨_, _, (Turn.stay (wake_inv h call.1.id)).before hsmooth (h.prompt.done call hcall) rfl, ?_⟩
  refine Nat.add_lt_add_left (List.length_filter_lt_length_iff_exists.mpr ⟨call, hcall, ?_⟩) _
  rw [bne_self_eq_false]
  exact Bool.false_ne_true

section Turns
variable [Std.TransCmp userCompare] (hproper : ∀ w ∈ arrived, Proper w)
  (hfew : (opsOf arrived).length ≤ kMaxSequenceNumber)
include hproper hfew

theorem turn_synced (h : Inv kByteExtensionTable userCompare arrived finished rs s)
    {updates : WriteBatch} {count : ℕ} {sync : Bool}
    (hgroup : s.group = some { updates, count, sync, stage := .synced }) :
    ∃ r es, Turn kByteExtensionTable userCompare arrived s r es ∧ r.pending < s.pending := by
  have hsmooth : Smooth s .insertInto := ⟨⟨_, hgroup, rfl⟩, trivial⟩
  obtain ⟨mem, hinsert, hq⟩ := insertInto_inv h hgroup hproper hfew
  obtain ⟨r, es, hturn, hless⟩ := turn_ended hq rfl
  exact ⟨r, _, hturn.before hsmooth trivial (step_insertInto hgroup hinsert), hless⟩

theorem turn_logged (h : Inv kByteExtensionTable userCompare arrived finished rs s)
    {updates : WriteBatch} {count : ℕ} {sync : Bool}
    (hgroup : s.group = some { updates, count, sync, stage := .logged }) :
    ∃ r es, Turn kByteExtensionTable userCompare arrived s r es ∧ r.pending < s.pending := by
  have hsmooth : Smooth s (.sync .ok) := ⟨⟨_, hgroup, rfl⟩, rfl⟩
  obtain ⟨r, es, hturn, hless⟩ := turn_synced hproper hfew (sync_inv h hgroup) rfl
  exact ⟨r, _, hturn.before hsmooth trivial (step_sync hgroup), hless⟩

theorem turn_built (h : Inv kByteExtensionTable userCompare arrived finished rs s)
    {updates : WriteBatch} {count : ℕ} {sync : Bool}
    (hgroup : s.group = some { updates, count, sync, stage := .built }) :
    ∃ r es, Turn kByteExtensionTable userCompare arrived s r es ∧ r.pending < s.pending := by
  have hsmooth : Smooth s (.addRecord none) :=
    ⟨⟨⟨_, hgroup, rfl⟩, fun _ _ hfailure => nomatch hfailure⟩, rfl⟩
  have hq := addRecord_inv h hgroup
  obtain ⟨r, es, hturn, hless⟩ : ∃ r es, Turn kByteExtensionTable userCompare arrived
      { s with
        log := s.log.addRecord kByteExtensionTable updates.contents
        group := some { updates, count, sync, stage := if sync then .logged else .synced } } r es ∧
      r.pending < s.pending := by
    cases sync with
    | true => exact turn_logged hproper hfew hq rfl
    | false => exact turn_synced hproper hfew hq rfl
  exact ⟨r, _, hturn.before hsmooth trivial (step_addRecord hgroup), hless⟩

theorem turn_leading (h : Inv kByteExtensionTable userCompare arrived finished rs s)
    (hleading : s.leading = true) (hnone : s.group = none) :
    ∃ r es, Turn kByteExtensionTable userCompare arrived s r es ∧ r.pending < s.pending := by
  have henabled : Enabled s (.makeRoom .ok) := by
    refine ⟨hleading, hnone, fun first hfirst hnoBatch => ?_⟩
    have hin : first ∈ arrived := by
      rw [h.queue]
      exact List.mem_append_right _ (List.mem_of_mem_head? hfirst)
    obtain ⟨batch, hbatch, -⟩ := (hproper first hin).holds
    rw [hbatch] at hnoBatch
    cases hnoBatch
  obtain ⟨⟨updates, count, sync, stage⟩, hstep, hstage, hq⟩ := makeRoom_inv h henabled hproper hfew
  dsimp only at hstage
  subst hstage
  obtain ⟨r, es, hturn, hless⟩ := turn_built hproper hfew hq rfl
  exact ⟨r, _, hturn.before ⟨henabled, rfl⟩ trivial hstep, hless⟩

/- The head of the queue was signalled, unless it was alone when it came. -/
theorem turn_front (h : Inv kByteExtensionTable userCompare arrived finished rs s)
    (hwaits : s.leading = false) (hnone : s.group = none) {first : Writer} {rest : List Writer}
    (hwriters : s.writers = first :: rest) :
    ∃ r es, Turn kByteExtensionTable userCompare arrived s r es ∧ r.pending < s.pending := by
  have hfirst : first ∈ s.writers.take 1 := by
    rw [hwriters]
    exact List.mem_cons_self
  have hin : first ∈ s.waiting := by
    unfold State.waiting
    rw [hwaits]
    exact List.mem_append_right _ (List.mem_of_mem_take hfirst)
  have hsmooth : Smooth s (.wake first.id) := ⟨⟨first, hin, rfl⟩, trivial⟩
  have hleads : (s.leading || (s.writers.take 1).any fun w => w.id == first.id) = true :=
    Bool.or_eq_true_iff.mpr (Or.inr (List.any_eq_true.mpr ⟨first, hfirst, beq_self_eq_true _⟩))
  obtain ⟨r, es, hturn, hless⟩ :=
    turn_leading hproper hfew (wake_inv h first.id) hleads hnone
  exact ⟨r, _, hturn.before hsmooth (h.prompt.front hwaits first hfirst) rfl,
    Nat.lt_of_lt_of_le hless (pending_wake s first.id)⟩

/- Whoever has not returned, somebody has a turn. -/
theorem some_turn (h : Inv kByteExtensionTable userCompare arrived finished rs s)
    (hpending : 0 < s.pending) :
    ∃ r es, Turn kByteExtensionTable userCompare arrived s r es ∧ r.pending < s.pending := by
  cases hgroup : s.group with
  | some g =>
    obtain ⟨updates, count, sync, stage⟩ := g
    cases stage with
    | built => exact turn_built hproper hfew h hgroup
    | logged => exact turn_logged hproper hfew h hgroup
    | synced => exact turn_synced hproper hfew h hgroup
    | ended status syncError => exact turn_ended h hgroup
  | none =>
    cases hleading : s.leading with
    | true => exact turn_leading hproper hfew h hleading hgroup
    | false =>
      cases hwriters : s.writers with
      | cons first rest => exact turn_front hproper hfew h hleading hgroup hwriters
      | nil =>
        cases hdone : s.done with
        | cons call calls =>
          exact turn_done h (by rw [hdone]; exact List.mem_cons_self : call ∈ s.done)
        | nil =>
          unfold State.pending at hpending
          rw [hwriters, hdone] at hpending
          exact absurd hpending (Nat.lt_irrefl 0)

theorem all_turns (h : Inv kByteExtensionTable userCompare arrived finished rs s) :
    ∃ r es, Turn kByteExtensionTable userCompare arrived s r es ∧ r.pending = 0 := by
  induction hn : s.pending using Nat.strongRecOn generalizing s finished rs with
  | ind n ih =>
    rcases Nat.eq_zero_or_pos s.pending with hzero | hpos
    · exact ⟨s, [], Turn.stay h, hzero⟩
    · obtain ⟨q, es, hturn, hless⟩ := some_turn hproper hfew h hpos
      obtain ⟨finished', rs', hq⟩ := hturn.inv
      obtain ⟨r, es', hturn', hzero⟩ := ih q.pending (hn ▸ hless) hq rfl
      exact ⟨r, es ++ es', hturn.append hturn', hzero⟩

end Turns

/-! ### Two writers -/

/- The second writer comes while the first one writes, and waits. -/
def firstWriter : Writer := { id := 0, batch := some (WriteBatch.clear.put [1] [2]), sync := false }
def secondWriter : Writer := { id := 1, batch := some (WriteBatch.clear.delete [1]), sync := false }
def started : List Event := [.write firstWriter, .makeRoom .ok, .addRecord none, .write secondWriter]

/- The first one returns, and the second one wakes up. -/
def twoWriters : List Event := started ++ [.insertInto, .finish, .wake 1]

theorem proper_of_holds {w : Writer} {batch : WriteBatch} {ops : List Op}
    (hbatch : w.batch = some batch) (hholds : batch.Holds ops) (hfits : ∀ op ∈ ops, op.Fits) :
    Proper w ∧ w.ops = ops := by
  have hops : w.ops = ops := by
    unfold Writer.ops
    rw [hbatch]
    exact WriteBatch.ops_of_holds hholds
  refine ⟨⟨⟨batch, hbatch, ?_⟩, ?_⟩, hops⟩
  · rw [hops]
    exact hholds
  · rw [hops]
    exact hfits

theorem proper_firstWriter : Proper firstWriter ∧ firstWriter.ops = [.put [1] [2]] :=
  proper_of_holds rfl (WriteBatch.holds_put WriteBatch.holds_clear (by decide) (by decide))
    (List.forall_mem_singleton.mpr (by decide))

theorem proper_secondWriter : Proper secondWriter ∧ secondWriter.ops = [.delete [1]] :=
  proper_of_holds rfl (WriteBatch.holds_delete WriteBatch.holds_clear (by decide) (by decide))
    (List.forall_mem_singleton.mpr (by decide))

theorem proper_both : ∀ w ∈ [firstWriter, secondWriter], Proper w :=
  List.forall_mem_cons.mpr
    ⟨proper_firstWriter.1, List.forall_mem_singleton.mpr proper_secondWriter.1⟩

theorem few_both : (opsOf [firstWriter, secondWriter]).length ≤ kMaxSequenceNumber := by
  have hops : opsOf [firstWriter, secondWriter] = firstWriter.ops ++ (secondWriter.ops ++ []) := rfl
  rw [hops, proper_firstWriter.2, proper_secondWriter.2]
  decide

/- When the second one has come. -/
def between : State where
  writers := [firstWriter, secondWriter]
  leading := true
  group := some {
    updates := (WriteBatch.clear.put [1] [2]).setSequence 1, count := 1, sync := false
    stage := .synced }
  log := (Log.Writer.open []).addRecord (fun _ => 0)
    ((WriteBatch.clear.put [1] [2]).setSequence 1).contents
  mem := MemTable.empty
  lastSequence := 0
  bgError := .ok
  done := []
  signalled := []
  returned := []
  arrived := 2

theorem exec_started :
    EventMachine.exec (step (fun _ => 0) bytewiseCompare) init started = .ok between := rfl

theorem smooth_started :
    EventMachine.AtEach Smooth (step (fun _ => 0) bytewiseCompare) init started :=
  ⟨⟨rfl, trivial⟩, ⟨⟨rfl, rfl, fun _ hfirst hnone => by cases hfirst; cases hnone⟩, rfl⟩,
    ⟨⟨⟨_, rfl, rfl⟩, fun _ _ hfailure => nomatch hfailure⟩, rfl⟩, ⟨rfl, trivial⟩, trivial⟩

theorem inv_started : ∃ finished rs,
    Inv (fun _ => 0) bytewiseCompare [firstWriter, secondWriter] finished rs between := by
  obtain ⟨q, finished, rs, hexec, hq⟩ := run_inv started (inv_init (fun _ => 0) bytewiseCompare)
    smooth_started proper_both few_both
  rw [exec_started] at hexec
  cases hexec
  exact ⟨finished, rs, hq⟩

section Ends
variable [Std.TransCmp userCompare]

/- The rest of a turn, from the insertion on. -/
theorem exec_end (h : Inv kByteExtensionTable userCompare arrived finished rs s)
    {updates : WriteBatch} {count : ℕ} {sync : Bool}
    (hgroup : s.group = some { updates, count, sync, stage := .synced })
    (hproper : ∀ w ∈ arrived, Proper w) (hfew : (opsOf arrived).length ≤ kMaxSequenceNumber) :
    ∃ mem, EventMachine.AtEach Smooth (step kByteExtensionTable userCompare) s
        [.insertInto, .finish] ∧
      EventMachine.exec (step kByteExtensionTable userCompare) s [.insertInto, .finish] =
        .ok ({ s with mem := mem, lastSequence := s.lastSequence + updates.count }.pop count .ok) := by
  obtain ⟨mem, hinsert, hq⟩ := insertInto_inv h hgroup hproper hfew
  have hstep : step kByteExtensionTable userCompare s .insertInto = _ :=
    step_insertInto hgroup hinsert
  refine ⟨mem, ?_, ?_⟩
  · rw [EventMachine.atEach_cons_ok _ hstep, EventMachine.atEach_singleton]
    exact ⟨⟨⟨_, hgroup, rfl⟩, trivial⟩, ⟨_, .ok, false, rfl, rfl⟩, trivial⟩
  · rw [EventMachine.exec_cons_ok _ hstep, EventMachine.exec_singleton, step_finish rfl]
    rfl

end Ends

theorem exec_twoWriters : ∃ mem,
    EventMachine.AtEach Smooth (step (fun _ => 0) bytewiseCompare) init twoWriters ∧
      EventMachine.exec (step (fun _ => 0) bytewiseCompare) init twoWriters = .ok
        { between with
          writers := [secondWriter], group := none, mem := mem, lastSequence := 1
          returned := [(firstWriter, .ok)] } := by
  obtain ⟨finished, rs, h⟩ := inv_started
  obtain ⟨mem, hsmooth, hexec⟩ := exec_end h rfl proper_both few_both
  refine ⟨mem, ?_, ?_⟩
  · have hwake := (EventMachine.atEach_append_ok (C := Smooth) [.wake 1] hexec).mpr
      ⟨hsmooth, ⟨⟨secondWriter, List.mem_cons_self, rfl⟩, trivial⟩, trivial⟩
    exact (EventMachine.atEach_append_ok _ exec_started).mpr ⟨smooth_started, hwake⟩
  · unfold twoWriters
    rw [EventMachine.exec_append_ok _ exec_started]
    exact EventMachine.exec_append_ok [.wake 1] hexec

/-! ### Results -/

section Results
variable (kByteExtensionTable) [Std.TransCmp userCompare]

end Results

end DBImpl

end PracticeApps.LevelDB
