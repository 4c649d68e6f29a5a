import PracticeApps.LevelDB.MemTable

/-!
# Batches in a memtable

`InsertInto` of write_batch.cc, and what a memtable answers after a history of
updates: at each snapshot the last update of the key before it.
-/

namespace PracticeApps.LevelDB

/-! ### MemTableInserter -/

/- `sequence_` and `mem_` -/
structure MemTableInserter where
  sequence : ℕ
  mem : Option MemTable

namespace WriteBatch
variable (userCompare : Bytes → Bytes → Ordering)

def memTableInserter : Handler MemTableInserter where
  put key value s :=
    { sequence := s.sequence + 1
      mem := s.mem.bind fun mem => mem.add userCompare s.sequence kTypeValue key value }
  delete key s :=
    { sequence := s.sequence + 1
      mem := s.mem.bind fun mem => mem.add userCompare s.sequence kTypeDeletion key [] }

def insertInto (b : WriteBatch) (memtable : MemTable) : Status × Option MemTable :=
  let inserted := b.iterate (memTableInserter userCompare)
    { sequence := b.sequence, mem := some memtable }
  (inserted.1, inserted.2.mem)

end WriteBatch

/-! ### Histories -/

namespace Op

def key : Op → Bytes
  | put key _ => key
  | delete key => key

def lookup : Op → Lookup
  | put _ value => .value value
  | delete _ => .deleted

/- What a memtable can take. -/
def Fits : Op → Prop
  | put key value => key.length + 8 < 2 ^ 32 ∧ value.length < 2 ^ 32
  | delete key => key.length + 8 < 2 ^ 32

instance decidableFits : (op : Op) → Decidable op.Fits
  | put _ _ => inferInstanceAs (Decidable (_ ∧ _))
  | delete _ => inferInstanceAs (Decidable (_ < _))

/- The entry of the update with this sequence number. -/
def entry (seq : ℕ) : Op → Entry
  | put key value => { seq := seq, type := kTypeValue, key := key, value := value }
  | delete key => { seq := seq, type := kTypeDeletion, key := key, value := [] }

@[simp] theorem entry_seq (seq : ℕ) (op : Op) : (op.entry seq).seq = seq := by cases op <;> rfl

@[simp] theorem entry_key (seq : ℕ) (op : Op) : (op.entry seq).key = op.key := by cases op <;> rfl

@[simp] theorem entry_lookup (seq : ℕ) (op : Op) : (op.entry seq).lookup = op.lookup := by
  cases op <;> rfl

theorem entry_fits {op : Op} (h : op.Fits) {seq : ℕ} (hseq : seq ≤ kMaxSequenceNumber) :
    (op.entry seq).Fits := by
  cases op with
  | put key value => exact ⟨hseq, Nat.le_refl _, h.1, h.2⟩
  | delete key => exact ⟨hseq, Nat.zero_le _, h, Nat.two_pow_pos 32⟩

end Op

/-- The answer of a history: what its last update of the key says. -/
def answer (userCompare : Bytes → Bytes → Ordering) (ops : List Op) (userKey : Bytes) : Lookup :=
  ((ops.reverse.find? fun op => userCompare op.key userKey == .eq).map Op.lookup).getD .miss

/- The entries of a history whose first update has this sequence number. -/
def entriesFrom (seq : ℕ) : List Op → List Entry
  | [] => []
  | op :: ops => op.entry seq :: entriesFrom (seq + 1) ops

theorem entriesFrom_append (seq : ℕ) (ops more : List Op) :
    entriesFrom seq (ops ++ more) = entriesFrom seq ops ++ entriesFrom (seq + ops.length) more := by
  induction ops generalizing seq with
  | nil => rfl
  | cons op ops ih =>
    rw [List.cons_append, entriesFrom, ih, entriesFrom, List.cons_append, List.length_cons]
    congr 3
    omega

theorem entriesFrom_concat (seq : ℕ) (ops : List Op) (op : Op) :
    entriesFrom seq (ops ++ [op]) = entriesFrom seq ops ++ [op.entry (seq + ops.length)] :=
  entriesFrom_append seq ops [op]

theorem entriesFrom_seq_lt {seq : ℕ} {ops : List Op} :
    ∀ e ∈ entriesFrom seq ops, e.seq < seq + ops.length := by
  induction ops using List.reverseRecOn with
  | nil => exact fun e he => absurd he List.not_mem_nil
  | append_singleton ops op ih =>
    intro e he
    rw [entriesFrom_concat] at he
    rw [List.length_append, List.length_singleton]
    rcases List.mem_append.mp he with he | he
    · exact Nat.lt_succ_of_lt (ih e he)
    · rw [List.mem_singleton.mp he, Op.entry_seq]
      exact Nat.lt_succ_self _

/-- What a snapshot sees is the history up to it. -/
theorem newest_entriesFrom (userCompare : Bytes → Bytes → Ordering) (n : ℕ) (ops : List Op)
    (userKey : Bytes) (seq : ℕ) :
    ((newest userCompare (entriesFrom (n + 1) ops) userKey seq).map Entry.lookup).getD .miss =
      answer userCompare (ops.take (seq - n)) userKey := by
  induction ops using List.reverseRecOn with
  | nil => rw [List.take_nil]; rfl
  | append_singleton ops op ih =>
    unfold newest at ih ⊢
    rw [entriesFrom_concat, List.reverse_append, List.reverse_singleton, List.singleton_append]
    by_cases hseen : n + 1 + ops.length ≤ seq
    · rw [List.take_of_length_le (by rw [List.length_append, List.length_singleton]; omega)]
      rw [List.take_of_length_le (by omega)] at ih
      unfold answer at ih ⊢
      rw [List.reverse_append, List.reverse_singleton, List.singleton_append]
      by_cases hkey : userCompare op.key userKey = .eq
      · rw [List.find?_cons_of_pos (by simp [hkey, hseen]), List.find?_cons_of_pos (by simp [hkey])]
        rw [Option.map_some, Option.map_some, Op.entry_lookup]
      · rw [List.find?_cons_of_neg (by simp [hkey]), List.find?_cons_of_neg (by simp [hkey])]
        exact ih
    · rw [List.find?_cons_of_neg (by simp [hseen]), List.take_append_of_le_length (by omega)]
      exact ih

/- An update that is not found among the last ones is looked for before them. -/
theorem answer_append (userCompare : Bytes → Bytes → Ordering) (older newer : List Op)
    (userKey : Bytes) :
    answer userCompare (older ++ newer) userKey =
      match answer userCompare newer userKey with
      | .miss => answer userCompare older userKey
      | lookup => lookup := by
  unfold answer
  rw [List.reverse_append, List.find?_append]
  cases hfind : newer.reverse.find? fun op => userCompare op.key userKey == .eq with
  | none => rfl
  | some op => cases op <;> rfl

section Insert
variable {userCompare : Bytes → Bytes → Ordering} [Std.TransCmp userCompare] {mem : MemTable}
  {n : ℕ} {history ops : List Op}

theorem get_history (h : Stores userCompare mem (entriesFrom (n + 1) history)) {userKey : Bytes}
    (hkey : userKey.length + 8 < 2 ^ 32) {seq : ℕ} (hseq : seq ≤ kMaxSequenceNumber) :
    mem.get userCompare userKey seq = some (answer userCompare (history.take (seq - n)) userKey) := by
  rw [get_spec h hkey hseq, newest_entriesFrom]

/- One update of a batch. -/
theorem apply_inserter (h : Stores userCompare mem (entriesFrom (n + 1) history)) {op : Op}
    (hop : op.Fits) (hseq : n + history.length + 1 ≤ kMaxSequenceNumber) :
    ∃ mem', op.apply (WriteBatch.memTableInserter userCompare)
        { sequence := n + history.length + 1, mem := some mem } =
          { sequence := n + (history ++ [op]).length + 1, mem := some mem' } ∧
      Stores userCompare mem' (entriesFrom (n + 1) (history ++ [op])) := by
  have hnext : n + 1 + history.length = n + history.length + 1 := Nat.add_right_comm n 1 _
  obtain ⟨mem', hadd, hstores⟩ := add_spec h (Op.entry_fits hop hseq) fun e he => by
    rw [Op.entry_seq, ← hnext]
    exact entriesFrom_seq_lt e he
  refine ⟨mem', ?_, by rw [entriesFrom_concat, hnext]; exact hstores⟩
  rw [List.length_append, List.length_singleton]
  cases op with
  | put key value =>
    unfold Op.apply WriteBatch.memTableInserter
    dsimp only
    rw [Option.bind_some]
    exact congrArg (MemTableInserter.mk _) hadd
  | delete key =>
    unfold Op.apply WriteBatch.memTableInserter
    dsimp only
    rw [Option.bind_some]
    exact congrArg (MemTableInserter.mk _) hadd

theorem foldl_inserter (h : Stores userCompare mem (entriesFrom (n + 1) history))
    (hops : ∀ op ∈ ops, op.Fits) (hseq : n + (history ++ ops).length ≤ kMaxSequenceNumber) :
    ∃ mem', ops.foldl (Op.apply (WriteBatch.memTableInserter userCompare))
        { sequence := n + history.length + 1, mem := some mem } =
          { sequence := n + (history ++ ops).length + 1, mem := some mem' } ∧
      Stores userCompare mem' (entriesFrom (n + 1) (history ++ ops)) := by
  induction ops generalizing history mem with
  | nil =>
    rw [List.append_nil]
    exact ⟨mem, rfl, h⟩
  | cons op ops ih =>
    rw [List.append_cons] at hseq ⊢
    obtain ⟨mem₁, happly, hstores⟩ := apply_inserter h (hops op List.mem_cons_self) (by
      rw [List.length_append, List.length_append, List.length_singleton] at hseq
      omega)
    rw [List.foldl_cons, happly]
    exact ih hstores (fun o ho => hops o (List.mem_cons_of_mem _ ho)) hseq

/-- A batch with the right sequence number goes on with the history. -/
theorem insertInto_spec (h : Stores userCompare mem (entriesFrom (n + 1) history)) {b : WriteBatch}
    (hb : b.Holds ops) (hnext : b.sequence = n + history.length + 1) (hops : ∀ op ∈ ops, op.Fits)
    (hseq : n + (history ++ ops).length ≤ kMaxSequenceNumber) :
    ∃ mem', b.insertInto userCompare mem = (.ok, some mem') ∧
      Stores userCompare mem' (entriesFrom (n + 1) (history ++ ops)) := by
  obtain ⟨mem', hfold, hstores⟩ := foldl_inserter h hops hseq
  refine ⟨mem', ?_, hstores⟩
  unfold WriteBatch.insertInto
  dsimp only
  rw [hnext, WriteBatch.iterate_holds _ hb, hfold]

end Insert

/-! ### Layers -/

/- Memtables, the newest first, that hold a history in consecutive parts. -/
def Layers (userCompare : Bytes → Bytes → Ordering) : List MemTable → List Op → Prop
  | [], ops => ops = []
  | mem :: older, ops => ∃ before newer, ops = before ++ newer ∧
      Stores userCompare mem (entriesFrom (before.length + 1) newer) ∧
      Layers userCompare older before

/- The first of the layers that knows the key answers. -/
def getLayers (userCompare : Bytes → Bytes → Ordering) (userKey : Bytes) (seq : ℕ) :
    List MemTable → Option Lookup
  | [] => some .miss
  | mem :: older =>
    match mem.get userCompare userKey seq with
    | some .miss => getLayers userCompare userKey seq older
    | found => found

/-- At the end of the history the layers answer as the history does. -/
theorem getLayers_spec {userCompare : Bytes → Bytes → Ordering} [Std.TransCmp userCompare]
    {layers : List MemTable} {ops : List Op} (h : Layers userCompare layers ops) {userKey : Bytes}
    (hkey : userKey.length + 8 < 2 ^ 32) {seq : ℕ} (hseq : seq ≤ kMaxSequenceNumber)
    (hall : ops.length ≤ seq) :
    getLayers userCompare userKey seq layers = some (answer userCompare ops userKey) := by
  induction layers generalizing ops with
  | nil =>
    have hnone : ops = [] := h
    rw [hnone]
    rfl
  | cons mem older ih =>
    obtain ⟨before, newer, rfl, hstores, hbefore⟩ := h
    rw [List.length_append] at hall
    have holder := ih hbefore (Nat.le_of_add_right_le hall)
    unfold getLayers
    rw [get_history hstores hkey hseq, List.take_of_length_le (by omega), answer_append, holder]
    cases answer userCompare newer userKey <;> rfl

end PracticeApps.LevelDB
