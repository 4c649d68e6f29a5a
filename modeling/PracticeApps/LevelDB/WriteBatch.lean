import PracticeApps.LevelDB.Coding

/-!
# write_batch.cc

A batch is one string: a sequence number, a count and the records. An `int` is a
natural number: a batch has fewer than 2 ^ 31 records.
-/

namespace PracticeApps.LevelDB

inductive Status where
  | ok
  | notFound
  | corruption (msg : String)
  deriving DecidableEq

/- `ValueType` -/
def kTypeDeletion : ℕ := 0
def kTypeValue : ℕ := 1

structure WriteBatch where
  rep : Bytes
  deriving DecidableEq

/- `WriteBatch::Handler`, acting on a state. -/
structure Handler (σ : Type) where
  put : Bytes → Bytes → σ → σ
  delete : Bytes → σ → σ

namespace WriteBatch

def kHeader : ℕ := 12

/- `WriteBatch()` and `Clear()` -/
def clear : WriteBatch := { rep := List.replicate kHeader 0 }

/-! ### WriteBatchInternal -/

def count (b : WriteBatch) : ℕ := decodeFixed32 (b.rep.drop 8)

def setCount (b : WriteBatch) (n : ℕ) : WriteBatch where
  rep := b.rep.take 8 ++ encodeFixed32 n ++ b.rep.drop 12

def sequence (b : WriteBatch) : ℕ := decodeFixed64 b.rep

def setSequence (b : WriteBatch) (seq : ℕ) : WriteBatch where
  rep := encodeFixed64 seq ++ b.rep.drop 8

def contents (b : WriteBatch) : Bytes := b.rep

def setContents (contents : Bytes) : WriteBatch := { rep := contents }

def byteSize (b : WriteBatch) : ℕ := b.rep.length

def append (dst src : WriteBatch) : WriteBatch where
  rep := (dst.setCount (dst.count + src.count)).rep ++ src.rep.drop kHeader

/-! ### WriteBatch -/

def put (b : WriteBatch) (key value : Bytes) : WriteBatch where
  rep := (b.setCount (b.count + 1)).rep ++ [UInt8.ofNat kTypeValue] ++
    putLengthPrefixedSlice key ++ putLengthPrefixedSlice value

def delete (b : WriteBatch) (key : Bytes) : WriteBatch where
  rep := (b.setCount (b.count + 1)).rep ++ [UInt8.ofNat kTypeDeletion] ++
    putLengthPrefixedSlice key

section Iterate
variable {σ : Type} (handler : Handler σ)

/- The switch of `Iterate`, behind the tag. -/
def iterateRecord (tag : UInt8) (input : Bytes) (s : σ) : Except String (Bytes × σ) :=
  if tag.toNat = kTypeValue then
    match getLengthPrefixedSlice input with
    | none => .error "bad WriteBatch Put"
    | some (key, input) =>
      match getLengthPrefixedSlice input with
      | none => .error "bad WriteBatch Put"
      | some (value, input) => .ok (input, handler.put key value s)
  else if tag.toNat = kTypeDeletion then
    match getLengthPrefixedSlice input with
    | none => .error "bad WriteBatch Delete"
    | some (key, input) => .ok (input, handler.delete key s)
  else .error "unknown WriteBatch tag"

theorem getVarint_length {width last shift result : ℕ} {p q : Bytes} {v : ℕ}
    (h : getVarint width last shift result p = some (v, q)) : q.length < p.length := by
  induction p generalizing shift result with
  | nil =>
    rw [getVarint] at h
    cases h
  | cons byte p ih =>
    rw [getVarint] at h
    split at h
    · cases h
    · split at h
      · exact Nat.lt_succ_of_lt (ih h)
      · cases h
        exact Nat.lt_succ_self _

theorem getLengthPrefixedSlice_length {input rest value : Bytes}
    (h : getLengthPrefixedSlice input = some (value, rest)) : rest.length < input.length := by
  have hptr : ∀ {len : ℕ} {q : Bytes}, getVarint32Ptr input = some (len, q) →
      q.length < input.length := by
    intro len q hq
    unfold getVarint32Ptr at hq
    cases input with
    | nil => exact getVarint_length hq
    | cons byte p =>
      dsimp only at hq
      split at hq
      · cases hq
        exact Nat.lt_succ_self _
      · exact getVarint_length hq
  unfold getLengthPrefixedSlice at h
  split at h
  · cases h
  · rename_i len q hq
    split at h
    · cases h
      rw [List.length_drop]
      exact Nat.lt_of_le_of_lt (Nat.sub_le _ _) (hptr hq)
    · cases h

theorem iterateRecord_length {tag : UInt8} {input rest : Bytes} {s s' : σ}
    (h : iterateRecord handler tag input s = .ok (rest, s')) : rest.length < input.length := by
  unfold iterateRecord at h
  split at h
  · split at h
    · cases h
    · rename_i key p hkey
      split at h
      · cases h
      · rename_i value q hvalue
        cases h
        exact Nat.lt_trans (getLengthPrefixedSlice_length hvalue)
          (getLengthPrefixedSlice_length hkey)
  · split at h
    · split at h
      · cases h
      · rename_i key p hkey
        cases h
        exact getLengthPrefixedSlice_length hkey
    · cases h

/- The loop of `Iterate`: how many records were found, or the corruption. -/
def iterateFrom (found : ℕ) (input : Bytes) (s : σ) : Except String ℕ × σ :=
  match input with
  | [] => (.ok found, s)
  | tag :: input =>
    match _ : iterateRecord handler tag input s with
    | .error msg => (.error msg, s)
    | .ok (input, s) => iterateFrom (found + 1) input s
termination_by input.length
decreasing_by
  exact Nat.lt_succ_of_lt (iterateRecord_length handler (by assumption))

def iterate (b : WriteBatch) (s : σ) : Status × σ :=
  if b.rep.length < kHeader then (.corruption "malformed WriteBatch (too small)", s)
  else
    match iterateFrom handler 0 (b.rep.drop kHeader) s with
    | (.error msg, s) => (.corruption msg, s)
    | (.ok found, s) =>
      if found ≠ b.count then (.corruption "WriteBatch has wrong count", s) else (.ok, s)

theorem iterateFrom_ok {tag : UInt8} {input rest : Bytes} {s s' : σ} (found : ℕ)
    (h : iterateRecord handler tag input s = .ok (rest, s')) :
    iterateFrom handler found (tag :: input) s = iterateFrom handler (found + 1) rest s' := by
  rw [iterateFrom]
  split
  · rename_i msg h'
    rw [h] at h'
    cases h'
  · rename_i rest' s'' h'
    rw [h] at h'
    cases h'
    rfl

end Iterate

end WriteBatch

/-! ### What a batch stands for -/

/-- An update. -/
inductive Op where
  | put (key value : Bytes)
  | delete (key : Bytes)
  deriving DecidableEq

namespace Op

def encode : Op → Bytes
  | put key value =>
    [UInt8.ofNat kTypeValue] ++ putLengthPrefixedSlice key ++ putLengthPrefixedSlice value
  | delete key => [UInt8.ofNat kTypeDeletion] ++ putLengthPrefixedSlice key

def apply {σ : Type} (handler : Handler σ) (s : σ) : Op → σ
  | put key value => handler.put key value s
  | delete key => handler.delete key s

/- The lengths fit a `uint32_t`. -/
def Small : Op → Prop
  | put key value => key.length < 2 ^ 32 ∧ value.length < 2 ^ 32
  | delete key => key.length < 2 ^ 32

instance decidableSmall : (op : Op) → Decidable op.Small
  | put _ _ => inferInstanceAs (Decidable (_ ∧ _))
  | delete _ => inferInstanceAs (Decidable (_ < _))

theorem encode_length (op : Op) : 1 ≤ op.encode.length := by
  cases op <;> simp only [encode, List.length_append, List.length_singleton] <;> omega

theorem length_flatMap_encode (ops : List Op) : ops.length ≤ (ops.flatMap encode).length := by
  induction ops with
  | nil => exact Nat.le_refl _
  | cons op ops ih =>
    have hop := op.encode_length
    rw [List.flatMap_cons, List.length_append, List.length_cons]
    omega

end Op

namespace WriteBatch
variable {σ : Type} (handler : Handler σ)

theorem iterateRecord_put {key value : Bytes} (h : (Op.put key value).Small) (rest : Bytes)
    (s : σ) :
    iterateRecord handler (UInt8.ofNat kTypeValue)
        (putLengthPrefixedSlice key ++ (putLengthPrefixedSlice value ++ rest)) s =
      .ok (rest, handler.put key value s) := by
  obtain ⟨hkey, hvalue⟩ := h
  unfold iterateRecord
  rw [if_pos (by decide), getLengthPrefixedSlice_put hkey]
  dsimp only
  rw [getLengthPrefixedSlice_put hvalue]

theorem iterateRecord_delete {key : Bytes} (h : (Op.delete key).Small) (rest : Bytes) (s : σ) :
    iterateRecord handler (UInt8.ofNat kTypeDeletion) (putLengthPrefixedSlice key ++ rest) s =
      .ok (rest, handler.delete key s) := by
  unfold iterateRecord
  rw [if_neg (by decide), if_pos (by decide), getLengthPrefixedSlice_put h]

theorem iterateFrom_encode {ops : List Op} (h : ∀ op ∈ ops, op.Small) (found : ℕ) (s : σ) :
    iterateFrom handler found (ops.flatMap Op.encode) s =
      (.ok (found + ops.length), ops.foldl (Op.apply handler) s) := by
  induction ops generalizing found s with
  | nil =>
    rw [List.flatMap_nil, iterateFrom]
    rfl
  | cons op ops ih =>
    have hop := h op List.mem_cons_self
    have hrest := ih (fun o ho => h o (List.mem_cons_of_mem _ ho)) (found + 1)
      (op.apply handler s)
    rw [List.flatMap_cons, List.foldl_cons, List.length_cons, Nat.add_comm ops.length 1,
      ← Nat.add_assoc, ← hrest]
    cases op with
    | put key value =>
      rw [Op.encode, List.append_assoc, List.append_assoc]
      exact iterateFrom_ok handler found (iterateRecord_put handler hop _ s)
    | delete key =>
      rw [Op.encode, List.append_assoc]
      exact iterateFrom_ok handler found (iterateRecord_delete handler hop _ s)

/-- The batch holds these updates. -/
structure Holds (b : WriteBatch) (ops : List Op) : Prop where
  header : kHeader ≤ b.rep.length
  count : b.count = ops.length
  records : b.rep.drop kHeader = ops.flatMap Op.encode
  small : ∀ op ∈ ops, op.Small
  few : ops.length < 2 ^ 31

variable {b : WriteBatch} {ops : List Op}

theorem setCount_header {b : WriteBatch} (h : kHeader ≤ b.rep.length) (n : ℕ) :
    (b.setCount n).rep.length = b.rep.length := by
  have hlength := LittleEndian.length_leBytes 4 n
  unfold kHeader at h
  simp only [setCount, encodeFixed32, List.length_append, List.length_take, List.length_drop]
  omega

theorem setCount_records {b : WriteBatch} (h : kHeader ≤ b.rep.length) (n : ℕ) :
    (b.setCount n).rep.drop kHeader = b.rep.drop kHeader := by
  have hlength := LittleEndian.length_leBytes 4 n
  unfold kHeader at *
  unfold setCount encodeFixed32
  apply List.drop_left'
  rw [List.length_append, List.length_take]
  omega

/-- The count is not disturbed by what is appended. -/
theorem count_setCount {b : WriteBatch} (h : kHeader ≤ b.rep.length) {n : ℕ} (hn : n < 2 ^ 31)
    (records : Bytes) : ({ rep := (b.setCount n).rep ++ records } : WriteBatch).count = n := by
  unfold kHeader at h
  unfold WriteBatch.count setCount
  dsimp only
  rw [List.append_assoc, List.append_assoc,
    List.drop_left' (by rw [List.length_take]; omega)]
  exact decodeFixed32_encode (by omega) _

theorem holds_clear : clear.Holds [] where
  header := by decide
  count := by decide
  records := by decide
  small := fun _ h => absurd h List.not_mem_nil
  few := by decide

/-- Records behind a batch, counted. -/
theorem holds_records {added : List Op} (h : b.Holds ops) (hsmall : ∀ op ∈ added, op.Small)
    (hfew : ops.length + added.length < 2 ^ 31) :
    ({ rep := (b.setCount (ops.length + added.length)).rep ++ added.flatMap Op.encode } :
      WriteBatch).Holds (ops ++ added) where
  header := by
    rw [List.length_append, setCount_header h.header]
    exact Nat.le_trans h.header (Nat.le_add_right _ _)
  count := by rw [count_setCount h.header hfew, List.length_append]
  records := by
    rw [List.drop_append_of_le_length (by rw [setCount_header h.header]; exact h.header),
      setCount_records h.header, h.records, List.flatMap_append]
  small := by
    intro op hop
    rcases List.mem_append.mp hop with hop | hop
    · exact h.small op hop
    · exact hsmall op hop
  few := by rw [List.length_append]; exact hfew

theorem holds_put {key value : Bytes} (h : b.Holds ops) (hsmall : (Op.put key value).Small)
    (hfew : ops.length + 1 < 2 ^ 31) : (b.put key value).Holds (ops ++ [.put key value]) := by
  have hput := holds_records h (List.forall_mem_singleton.mpr hsmall) hfew
  rw [List.flatMap_singleton, Op.encode, ← List.append_assoc, ← List.append_assoc,
    List.length_singleton, ← h.count] at hput
  exact hput

theorem holds_delete {key : Bytes} (h : b.Holds ops) (hsmall : (Op.delete key).Small)
    (hfew : ops.length + 1 < 2 ^ 31) : (b.delete key).Holds (ops ++ [.delete key]) := by
  have hdelete := holds_records h (List.forall_mem_singleton.mpr hsmall) hfew
  rw [List.flatMap_singleton, Op.encode, ← List.append_assoc, List.length_singleton,
    ← h.count] at hdelete
  exact hdelete

theorem holds_append {src : WriteBatch} {added : List Op} (h : b.Holds ops)
    (hsrc : src.Holds added) (hfew : ops.length + added.length < 2 ^ 31) :
    (b.append src).Holds (ops ++ added) := by
  have happend := holds_records h hsrc.small hfew
  rw [← hsrc.records, ← hsrc.count, ← h.count] at happend
  exact happend

theorem holds_setSequence (h : b.Holds ops) (seq : ℕ) : (b.setSequence seq).Holds ops := by
  have hlength := LittleEndian.length_leBytes 8 seq
  have hheader := h.header
  unfold kHeader at hheader
  constructor
  · simp only [setSequence, encodeFixed64, List.length_append, List.length_drop, kHeader]
    omega
  · rw [← h.count]
    unfold WriteBatch.count setSequence encodeFixed64
    rw [List.drop_left' hlength]
  · rw [← h.records]
    unfold setSequence encodeFixed64 kHeader
    rw [List.drop_append, List.drop_eq_nil_of_le (by omega), hlength, List.nil_append,
      List.drop_drop]
  · exact h.small
  · exact h.few

theorem sequence_setSequence (b : WriteBatch) {seq : ℕ} (h : seq < 2 ^ 64) :
    (b.setSequence seq).sequence = seq := decodeFixed64_encode h _

/-- The handler sees the updates of a batch, all of them and in order. -/
theorem iterate_holds (h : b.Holds ops) (s : σ) :
    b.iterate handler s = (.ok, ops.foldl (Op.apply handler) s) := by
  unfold iterate
  rw [if_neg (Nat.not_lt.mpr h.header), h.records, iterateFrom_encode handler h.small]
  dsimp only
  rw [h.count, Nat.zero_add, if_neg (not_not.mpr rfl)]

end WriteBatch

end PracticeApps.LevelDB
