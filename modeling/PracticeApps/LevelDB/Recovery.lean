import PracticeApps.LevelDB.Writes

/-!
# Serial writes and recovery

The two results about whole runs: what readers see while writers come and go,
and what the log gives back after a crash.
-/

namespace PracticeApps.LevelDB

/-! ### Reports -/

namespace Log
variable (kByteExtensionTable : UInt8 → UInt32) (checksum : Bool)

theorem parse_drops (r : Reader) : r.drops <+: (r.parse kByteExtensionTable checksum).2.drops := by
  unfold Reader.parse
  dsimp only
  split_ifs
  · exact List.prefix_refl _
  · exact List.prefix_append _ _
  · exact List.prefix_refl _
  · exact List.prefix_append _ _
  · exact List.prefix_refl _

theorem readPhysicalRecord_drops (r : Reader) :
    r.drops <+: (r.readPhysicalRecord kByteExtensionTable checksum).2.drops := by
  have hfill : r.fill.drops = r.drops := by
    unfold Reader.fill
    split <;> rfl
  unfold Reader.readPhysicalRecord
  dsimp only
  split
  · dsimp only
    rw [hfill]
  · rw [← hfill]
    exact parse_drops kByteExtensionTable checksum r.fill

theorem handleFragment_drops (scratch : Bytes) (inFragmentedRecord : Bool) (recordType : ℕ)
    (fragment : Bytes) (r : Reader) :
    r.drops <+: (r.handleFragment scratch inFragmentedRecord recordType fragment).reader.drops := by
  unfold Reader.handleFragment
  split_ifs <;> first | exact List.prefix_refl _ | exact List.prefix_append _ _

theorem readFragments_drops (scratch : Bytes) (inFragmentedRecord : Bool) (r : Reader) :
    r.drops <+: (r.readFragments kByteExtensionTable checksum scratch inFragmentedRecord).2.drops := by
  induction hn : r.size using Nat.strongRecOn generalizing scratch inFragmentedRecord r with
  | ind n ih =>
    have hnextDrops : r.drops <+:
        (r.next kByteExtensionTable checksum scratch inFragmentedRecord).reader.drops :=
      (readPhysicalRecord_drops kByteExtensionTable checksum r).trans (handleFragment_drops _ _ _ _ _)
    cases hnext : r.next kByteExtensionTable checksum scratch inFragmentedRecord with
    | done record q =>
      rw [hnext] at hnextDrops
      rw [readFragments_done kByteExtensionTable hnext]
      exact hnextDrops
    | again scratch' flag q =>
      rw [hnext] at hnextDrops
      rw [readFragments_again kByteExtensionTable hnext]
      exact hnextDrops.trans
        (ih q.size (hn ▸ again_size kByteExtensionTable hnext) scratch' flag q rfl)

theorem readRecord_drops {checksum : Bool} {r r' : Reader} {record : Option Bytes}
    (h : r.readRecord kByteExtensionTable checksum = (record, r')) : r.drops <+: r'.drops := by
  have hfragments := readFragments_drops kByteExtensionTable checksum [] false r
  unfold Reader.readRecord at h
  rw [h] at hfragments
  exact hfragments

theorem readRecords_drops (r : Reader) :
    r.drops <+: (r.readRecords kByteExtensionTable checksum).2.drops := by
  induction hn : r.size using Nat.strongRecOn generalizing r with
  | ind n ih =>
    cases hread : r.readRecord kByteExtensionTable checksum with
    | mk record q =>
      have hq := readRecord_drops kByteExtensionTable hread
      cases record with
      | none =>
        rw [readRecords_none kByteExtensionTable hread]
        exact hq
      | some record =>
        rw [readRecords_some kByteExtensionTable hread]
        exact hq.trans (ih q.size
          (hn ▸ readFragments_size kByteExtensionTable checksum [] false r hread) q rfl)

end Log

namespace DBImpl
variable (kByteExtensionTable : UInt8 → UInt32) {userCompare : Bytes → Bytes → Ordering}
  (options : Options) (env : Env)

/-! ### The loop of recovery -/

theorem reported_none {r r' : Log.Reader} (h : r'.drops = r.drops) (status : Status) :
    reported options r r' status = status := by
  unfold reported
  rw [h, List.drop_eq_nil_of_le (Nat.le_refl _)]
  rfl

theorem recoverLoop_done {r r' : Log.Reader} {s : Recovery}
    (hread : r.readRecord kByteExtensionTable true = (none, r')) (hdrops : r'.drops = r.drops) :
    recoverLoop kByteExtensionTable userCompare options env r s = some s := by
  rw [recoverLoop]
  split
  · rename_i q h
    rw [hread] at h
    cases h
    rw [reported_none options hdrops]
  · rename_i record q h
    rw [hread] at h
    cases h

theorem recoverLoop_again {r r' : Log.Reader} {s s' : Recovery} {record : Bytes}
    (hread : r.readRecord kByteExtensionTable true = (some record, r'))
    (hdrops : r'.drops = r.drops) (hok : s.status = .ok)
    (hrecord : recoverRecord userCompare options env record s = some s')
    (hok' : s'.status = .ok) :
    recoverLoop kByteExtensionTable userCompare options env r s =
      recoverLoop kByteExtensionTable userCompare options env r' s' := by
  rw [recoverLoop]
  split
  · rename_i q h
    rw [hread] at h
    cases h
  · rename_i record' q h
    rw [hread] at h
    cases h
    dsimp only
    have hsame : { s with status := s.status } = s := rfl
    rw [reported_none options hdrops, if_neg (not_not.mpr hok), hsame, hrecord]
    dsimp only
    rw [if_neg (not_not.mpr hok')]

/- A skip list without a first node is empty. -/
theorem stores_nothing {mem : MemTable} {entries : List Entry}
    (h : Stores userCompare mem entries) (hfirst : mem.table.seekToFirst = some none) :
    entries = [] := by
  have hnone := h.sorted.points .head 0 none hfirst
  have hlength := congrArg List.length h.keys
  rw [List.length_map, SkipList.length_keys] at hlength
  by_contra hne
  have hpos : 0 < mem.table.nodes.length := by
    rw [hlength]
    exact List.length_pos_of_ne_nil hne
  exact hnone 0 (h.sorted.height_pos 0 hpos) trivial

section Replay
variable [Std.TransCmp userCompare]

/- What has been replayed: the tables and the memtable, which is made for the first record. -/
structure Replayed (userCompare : Bytes → Bytes → Ordering) (s : Recovery) (ops : List Op) :
    Prop where
  status : s.status = .ok
  layers : Layers userCompare (s.mem.toList ++ s.tables) ops
  maxSequence : s.maxSequence = ops.length

omit [Std.TransCmp userCompare] in
/- A memtable that becomes a table stays readable. -/
theorem writeLevel0Table_spec (hbuild : ∀ mem, env.buildTable mem = .ok) {mem : MemTable}
    {s : Recovery} {ops : List Op} (hnone : s.mem = none)
    (h : Layers userCompare (mem :: s.tables) ops) (hmax : s.maxSequence = ops.length) :
    Replayed userCompare (writeLevel0Table env mem s) ops := by
  unfold writeLevel0Table
  by_cases hfirst : mem.table.seekToFirst = some none
  · rw [if_pos hfirst]
    obtain ⟨before, newer, hops, hstores, hbefore⟩ := h
    have hnewer : newer = [] := by
      cases newer with
      | nil => rfl
      | cons op newer => cases stores_nothing hstores hfirst
    rw [hnewer, List.append_nil] at hops
    refine ⟨rfl, ?_, hmax⟩
    dsimp only
    rw [hnone, hops]
    exact hbefore
  · rw [if_neg hfirst, hbuild mem]
    refine ⟨rfl, ?_, hmax⟩
    dsimp only
    rw [hnone]
    exact h

omit [Std.TransCmp userCompare] in
/- The memtable of the loop, before a record is put into it. -/
theorem Replayed.stores {s : Recovery} {history : List Op} (h : Replayed userCompare s history) :
    ∃ before newer, history = before ++ newer ∧
      Stores userCompare (s.mem.getD MemTable.empty) (entriesFrom (before.length + 1) newer) ∧
      Layers userCompare s.tables before := by
  have hlayers := h.layers
  cases hmem : s.mem with
  | none =>
    rw [hmem] at hlayers
    exact ⟨history, [], (List.append_nil _).symm, stores_empty, hlayers⟩
  | some mem =>
    rw [hmem] at hlayers
    exact hlayers

theorem recoverRecord_spec (hbuild : ∀ mem, env.buildTable mem = .ok) {s : Recovery}
    {history ops : List Op} (h : Replayed userCompare s history) {b : WriteBatch}
    (hb : b.Holds ops) (hnext : b.sequence = history.length + 1) (hops : ∀ op ∈ ops, op.Fits)
    (hfew : (history ++ ops).length ≤ kMaxSequenceNumber) :
    ∃ s', recoverRecord userCompare options env b.contents s = some s' ∧
      Replayed userCompare s' (history ++ ops) := by
  obtain ⟨before, newer, rfl, hmem, hbefore⟩ := h.stores
  obtain ⟨mem', hinsert, hmem'⟩ := insertInto_spec hmem hb
    (by rw [hnext, List.length_append]) hops (by
      rw [List.append_assoc, List.length_append] at hfew
      exact hfew)
  have hlayers : Layers userCompare (mem' :: s.tables) ((before ++ newer) ++ ops) :=
    ⟨before, newer ++ ops, List.append_assoc _ _ _, hmem', hbefore⟩
  have hsequence : max s.maxSequence ((b.sequence + b.count + (2 ^ 64 - 1)) % 2 ^ 64) =
      ((before ++ newer) ++ ops).length := by
    have hmax : kMaxSequenceNumber = 2 ^ 56 - 1 := by decide
    rw [hnext, hb.count, h.maxSequence]
    simp only [List.length_append] at hfew ⊢
    omega
  have hignore : maybeIgnoreError options .ok = .ok := by
    unfold maybeIgnoreError
    split <;> rfl
  have hheader : ¬ b.contents.length < 12 := Nat.not_lt.mpr hb.header
  have hsame : WriteBatch.setContents b.contents = b := rfl
  unfold recoverRecord
  rw [if_neg hheader]
  dsimp only
  rw [hsame, hinsert]
  dsimp only
  rw [hignore, if_neg (not_not.mpr rfl), hsequence]
  by_cases hfull : options.writeBufferSize < env.approximateMemoryUsage mem'
  · rw [if_pos hfull]
    exact ⟨_, rfl, writeLevel0Table_spec env hbuild rfl hlayers rfl⟩
  · rw [if_neg hfull]
    exact ⟨_, rfl, rfl, hlayers, rfl⟩

/-- Recovery replays the batches that the reader returns. -/
theorem recoverLoop_spec (hbuild : ∀ mem, env.buildTable mem = .ok) (rs : List Record)
    {r r' : Log.Reader} {s : Recovery} {history : List Op} (horder : InOrder history.length rs)
    (hread : r.readRecords kByteExtensionTable true = (rs.map fun q => q.batch.contents, r'))
    (hdrops : r'.drops = r.drops) (h : Replayed userCompare s history)
    (hfits : ∀ op ∈ opsOf (writersOf rs), op.Fits)
    (hfew : (history ++ opsOf (writersOf rs)).length ≤ kMaxSequenceNumber) :
    ∃ s', recoverLoop kByteExtensionTable userCompare options env r s = some s' ∧
      Replayed userCompare s' (history ++ opsOf (writersOf rs)) := by
  induction rs generalizing r s history with
  | nil =>
    have hnothing : Replayed userCompare s (history ++ opsOf (writersOf [])) := by
      rw [writersOf, List.flatMap_nil, opsOf, List.flatMap_nil, List.append_nil]
      exact h
    refine ⟨s, ?_, hnothing⟩
    cases hfirst : r.readRecord kByteExtensionTable true with
    | mk record q =>
      cases record with
      | none =>
        rw [Log.readRecords_none kByteExtensionTable hfirst] at hread
        cases hread
        exact recoverLoop_done kByteExtensionTable options env hfirst hdrops
      | some record =>
        rw [Log.readRecords_some kByteExtensionTable hfirst] at hread
        cases hread
  | cons p rs ih =>
    obtain ⟨holds, next, rest⟩ := horder
    have hcons : writersOf (p :: rs) = p.writers ++ writersOf rs := List.flatMap_cons
    rw [hcons, opsOf_append] at hfits hfew ⊢
    rw [← List.append_assoc] at hfew ⊢
    cases hfirst : r.readRecord kByteExtensionTable true with
    | mk record q =>
      cases record with
      | none =>
        rw [Log.readRecords_none kByteExtensionTable hfirst] at hread
        cases hread
      | some record =>
        rw [Log.readRecords_some kByteExtensionTable hfirst] at hread
        have hrecord : record = p.batch.contents := by
          have hheads := congrArg (fun read => read.1.head?) hread
          exact Option.some_inj.mp hheads
        have hrest : q.readRecords kByteExtensionTable true =
            (rs.map fun q => q.batch.contents, r') :=
          congrArg (fun read => (read.1.tail, read.2)) hread
        subst hrecord
        -- Nothing was reported before the end, so nothing is reported here.
        have hfirstDrops : q.drops = r.drops := by
          have hhere := Log.readRecord_drops kByteExtensionTable hfirst
          have hthere := Log.readRecords_drops kByteExtensionTable true q
          rw [hrest, hdrops] at hthere
          exact List.IsPrefix.eq_of_length_le hthere hhere.length_le
        obtain ⟨s', hs', hreplayed⟩ := recoverRecord_spec options env hbuild h holds next
          (fun op hop => hfits op (List.mem_append_left _ hop)) (by
            rw [List.length_append] at hfew
            omega)
        obtain ⟨s'', hs'', hall⟩ := ih (by rw [List.length_append]; exact rest) hrest
          (hdrops.trans hfirstDrops.symm) hreplayed
          (fun op hop => hfits op (List.mem_append_right _ hop)) hfew
        refine ⟨s'', ?_, hall⟩
        rw [recoverLoop_again kByteExtensionTable options env hfirst hfirstDrops h.status hs'
          hreplayed.status]
        exact hs''

omit [Std.TransCmp userCompare] in
/-- Behind the loop: whether the log is used again or the memtable becomes a table, what was
replayed is what the database reads. -/
theorem recoverLogFile_spec (hbuild : ∀ mem, env.buildTable mem = .ok) (lastLog : Bool)
    {file : Bytes} {s : Recovery} {ops : List Op}
    (hloop : recoverLoop kByteExtensionTable userCompare options env (Log.Reader.open file)
      Recovery.init = some s) (h : Replayed userCompare s ops) :
    ∃ r, recoverLogFile kByteExtensionTable userCompare options env lastLog file = some r ∧
      r.recovery.status = .ok ∧ r.recovery.maxSequence = ops.length ∧
      Layers userCompare r.layers ops := by
  unfold recoverLogFile
  rw [hloop, Option.map_some]
  refine ⟨_, rfl, ?_⟩
  have hlayers := h.layers
  split
  · refine ⟨h.status, h.maxSequence, ?_⟩
    cases hmem : s.mem with
    | none =>
      rw [hmem] at hlayers
      exact ⟨ops, [], (List.append_nil _).symm, stores_empty, hlayers⟩
    | some mem =>
      rw [hmem] at hlayers
      exact hlayers
  · cases hmem : s.mem with
    | none =>
      rw [hmem] at hlayers
      exact ⟨h.status, h.maxSequence, hlayers⟩
    | some mem =>
      rw [hmem] at hlayers
      dsimp only
      rw [if_pos h.status]
      have hwritten : Replayed userCompare
          (writeLevel0Table env mem { s with mem := none, saveManifest := true }) ops :=
        writeLevel0Table_spec env hbuild rfl hlayers h.maxSequence
      have hempty : (writeLevel0Table env mem { s with mem := none, saveManifest := true }).mem =
          none := by
        unfold writeLevel0Table
        split_ifs <;> rfl
      have hall := hwritten.layers
      rw [hempty] at hall
      exact ⟨hwritten.status, hwritten.maxSequence, hall⟩

variable (userCompare) in
/- Of a log that is cut off, the records that end before the cut are replayed. -/
theorem recoverLogFile_cut (hbuild : ∀ mem, env.buildTable mem = .ok) (lastLog : Bool)
    {log : Log.Writer} {rs : List Record} (h : LogHolds kByteExtensionTable log rs)
    (hfits : ∀ op ∈ opsOf (writersOf rs), op.Fits)
    (hfew : (opsOf (writersOf rs)).length ≤ kMaxSequenceNumber) (n : ℕ) :
    ∃ k r,
      recoverLogFile kByteExtensionTable userCompare options env lastLog (log.dest.take n) =
        some r ∧
      r.recovery.status = .ok ∧
      r.recovery.maxSequence = (opsOf (writersOf (rs.take k))).length ∧
      Layers userCompare r.layers (opsOf (writersOf (rs.take k))) ∧
      ∀ log' first, LogHolds kByteExtensionTable log' first → first <+: rs →
        log'.dest.length ≤ n → first.length ≤ k := by
  obtain ⟨E, hdest, hreads⟩ := Log.addRecords_reads kByteExtensionTable true
    (rs.map fun r => r.batch.contents) (Log.Writer.open [])
  obtain ⟨k, r, hread, hdrops, hcount⟩ :=
    hreads n (Log.Reader.open (E.take n)) (Or.inr ⟨rfl, Log.at_open _⟩)
  have hfile : log.dest = E := by
    rw [h.log, hdest]
    rfl
  rw [← List.map_take] at hread
  have hops := opsOf_mono (writersOf_mono (List.take_prefix k rs))
  have horder : InOrder ([] : List Op).length (rs.take k) := h.order.take k
  have hempty : Replayed userCompare Recovery.init [] := ⟨rfl, rfl, rfl⟩
  obtain ⟨s, hloop, hreplayed⟩ := recoverLoop_spec kByteExtensionTable options env hbuild
    _ horder hread hdrops hempty (fun op hop => hfits op (hops.subset hop))
    (hops.length_le.trans hfew)
  rw [List.nil_append] at hreplayed
  obtain ⟨q, hrecover, hstatus, hmax, hlayers⟩ := recoverLogFile_spec kByteExtensionTable options
    env hbuild lastLog hloop hreplayed
  refine ⟨k, q, by rw [hfile]; exact hrecover, hstatus, hmax, hlayers, ?_⟩
  intro log' first hfirst hbegin hshort
  refine (hcount first.length ?_).mp ?_
  · rw [List.length_map]
    exact hbegin.length_le
  · rw [← List.map_take, ← List.prefix_iff_eq_take.mp hbegin, ← hfirst.log]
    exact Nat.le_trans hshort (Nat.le_add_left _ _)

end Replay

end DBImpl

end PracticeApps.LevelDB
