import PracticeApps.LevelDB.WriteBatch
import PracticeApps.LevelDB.SkipListIterator

/-!
# dbformat.cc, memtable.cc, random.h

The memtable: entries of a user key, a sequence number, a type and a value, in
a skip list. The user's comparator is a parameter.
-/

namespace PracticeApps.LevelDB

/-! ### random.h -/

namespace Random

def M : ℕ := 2147483647

def init (s : ℕ) : ℕ :=
  let seed := s &&& 0x7fffffff
  if seed = 0 ∨ seed = 2147483647 then 1 else seed

def next (seed : ℕ) : ℕ :=
  let product := seed * 16807
  let seed := ((product >>> 31) + (product &&& M)) % 2 ^ 32
  if seed > M then seed - M else seed

end Random

/- `RandomHeight`: the height and the generator after it. -/
def randomHeight (height rnd : ℕ) : ℕ × ℕ :=
  if height < kMaxHeight then
    if Random.next rnd % 4 = 0 then randomHeight (height + 1) (Random.next rnd)
    else (height, Random.next rnd)
  else (height, rnd)
termination_by kMaxHeight - height

theorem randomHeight_range (height rnd : ℕ) (hpos : 1 ≤ height) (hle : height ≤ kMaxHeight) :
    1 ≤ (randomHeight height rnd).1 ∧ (randomHeight height rnd).1 ≤ kMaxHeight := by
  induction hleft : kMaxHeight - height generalizing height rnd with
  | zero =>
    rw [randomHeight, if_neg (by omega)]
    exact ⟨hpos, hle⟩
  | succ left ih =>
    rw [randomHeight, if_pos (by omega)]
    split
    · exact ih (height + 1) _ (by omega) (by omega) (by omega)
    · exact ⟨hpos, hle⟩

/-! ### dbformat.cc -/

def kValueTypeForSeek : ℕ := kTypeValue

def kMaxSequenceNumber : ℕ := (1 <<< 56) - 1

def packSequenceAndType (seq t : ℕ) : ℕ := (seq <<< 8) ||| t

def internalKey (userKey : Bytes) (seq t : ℕ) : Bytes :=
  userKey ++ encodeFixed64 (packSequenceAndType seq t)

def extractUserKey (internalKey : Bytes) : Bytes := internalKey.take (internalKey.length - 8)

def extractTag (internalKey : Bytes) : ℕ :=
  decodeFixed64 (internalKey.drop (internalKey.length - 8))

/- `BytewiseComparator`: `memcmp`, and of two strings one of which begins the other the
shorter one first. -/
def bytewiseCompare : Bytes → Bytes → Ordering := List.compareLex compare

instance : Std.TransCmp bytewiseCompare := inferInstanceAs (Std.TransCmp (List.compareLex compare))

section Comparators
variable (userCompare : Bytes → Bytes → Ordering)

/- `InternalKeyComparator::Compare` -/
def internalCompare (akey bkey : Bytes) : Ordering :=
  match userCompare (extractUserKey akey) (extractUserKey bkey) with
  | .eq =>
    if extractTag bkey < extractTag akey then .lt
    else if extractTag akey < extractTag bkey then .gt
    else .eq
  | r => r

/- `GetLengthPrefixedSlice(data)` -/
def lengthPrefixedSlice (data : Bytes) : Bytes :=
  match getVarint32Ptr data with
  | none => []
  | some (len, p) => p.take len

/- `MemTable::KeyComparator` -/
def entryCompare (a b : Bytes) : Ordering :=
  internalCompare userCompare (lengthPrefixedSlice a) (lengthPrefixedSlice b)

end Comparators

/- `memtable_key()` of a `LookupKey` -/
def lookupKey (userKey : Bytes) (seq : ℕ) : Bytes :=
  encodeVarint32 ((userKey.length + 8) % 2 ^ 32) ++ internalKey userKey seq kValueTypeForSeek

/-! ### memtable.cc -/

structure MemTable where
  table : SkipList Bytes
  rnd : ℕ

/- What `Get` says: `false`, or `true` with a value or with `NotFound`. -/
inductive Lookup where
  | miss
  | value (v : Bytes)
  | deleted
  deriving DecidableEq

namespace MemTable
variable (userCompare : Bytes → Bytes → Ordering)

def empty : MemTable := { table := SkipList.empty, rnd := Random.init 0xdeadbeef }

/- The buffer of an entry. -/
def encodeEntry (seq t : ℕ) (key value : Bytes) : Bytes :=
  encodeVarint32 ((key.length + 8) % 2 ^ 32) ++ internalKey key seq t ++
    (encodeVarint32 (value.length % 2 ^ 32) ++ value)

def add (m : MemTable) (seq t : ℕ) (key value : Bytes) : Option MemTable :=
  let height := randomHeight 1 m.rnd
  (m.table.insert (entryCompare userCompare) (encodeEntry seq t key value) height.1).map
    fun table => { table := table, rnd := height.2 }

/- `Get` at the entry where `Seek` stops. -/
def getEntry (userKey entry : Bytes) : Lookup :=
  match getVarint32Ptr entry with
  | none => .miss
  | some (keyLength, keyPtr) =>
    if userCompare (keyPtr.take (keyLength - 8)) userKey = .eq then
      let tag := decodeFixed64 (keyPtr.drop (keyLength - 8))
      if tag &&& 0xff = kTypeValue then .value (lengthPrefixedSlice (keyPtr.drop keyLength))
      else if tag &&& 0xff = kTypeDeletion then .deleted
      else .miss
    else .miss

def get (m : MemTable) (userKey : Bytes) (seq : ℕ) : Option Lookup := do
  let i ← m.table.seek (entryCompare userCompare) (lookupKey userKey seq)
  match i with
  | none => some .miss
  | some i => (m.table.key? i).map (getEntry userCompare userKey)

end MemTable

/-! ### Entries -/

/-- An entry of a memtable. -/
structure Entry where
  seq : ℕ
  type : ℕ
  key : Bytes
  value : Bytes
  deriving DecidableEq

namespace Entry

def encode (e : Entry) : Bytes := MemTable.encodeEntry e.seq e.type e.key e.value

def tag (e : Entry) : ℕ := e.seq * 256 + e.type

/- What the types of the source can hold. -/
structure Fits (e : Entry) : Prop where
  seq : e.seq ≤ kMaxSequenceNumber
  type : e.type ≤ kTypeValue
  key : e.key.length + 8 < 2 ^ 32
  value : e.value.length < 2 ^ 32

/- What `Get` makes of an entry. -/
def lookup (e : Entry) : Lookup := if e.type = kTypeValue then .value e.value else .deleted

end Entry

theorem packSequenceAndType_eq (seq : ℕ) {t : ℕ} (h : t ≤ kTypeValue) :
    packSequenceAndType seq t = seq * 256 + t := by
  have hsmall : t < 2 ^ 8 := Nat.lt_of_le_of_lt h (by decide)
  unfold packSequenceAndType
  rw [Nat.or_comm, or_shift hsmall]
  omega

theorem packSequenceAndType_lt {seq t : ℕ} (hseq : seq ≤ kMaxSequenceNumber)
    (h : t ≤ kTypeValue) : packSequenceAndType seq t < 2 ^ 64 := by
  have hmax : kMaxSequenceNumber = 2 ^ 56 - 1 := by decide
  have hone : kTypeValue = 1 := rfl
  rw [packSequenceAndType_eq seq h]
  omega

theorem length_internalKey (userKey : Bytes) (seq t : ℕ) :
    (internalKey userKey seq t).length = userKey.length + 8 := by
  rw [internalKey, encodeFixed64, List.length_append, LittleEndian.length_leBytes]

theorem extractUserKey_internalKey (userKey : Bytes) (seq t : ℕ) :
    extractUserKey (internalKey userKey seq t) = userKey := by
  rw [extractUserKey, length_internalKey, Nat.add_sub_cancel, internalKey, List.take_left]

theorem extractTag_internalKey (userKey : Bytes) {seq t : ℕ} (hseq : seq ≤ kMaxSequenceNumber)
    (ht : t ≤ kTypeValue) : extractTag (internalKey userKey seq t) = seq * 256 + t := by
  have hdecode := decodeFixed64_encode (packSequenceAndType_lt hseq ht) []
  rw [List.append_nil] at hdecode
  rw [extractTag, length_internalKey, Nat.add_sub_cancel, internalKey, List.drop_left, hdecode,
    packSequenceAndType_eq seq ht]

theorem lengthPrefixedSlice_encode {value : Bytes} (h : value.length < 2 ^ 32) (rest : Bytes) :
    lengthPrefixedSlice (encodeVarint32 value.length ++ (value ++ rest)) = value := by
  unfold lengthPrefixedSlice
  rw [getVarint32Ptr_encode h]
  exact List.take_left

theorem lengthPrefixedSlice_entry {e : Entry} (h : e.Fits) :
    lengthPrefixedSlice e.encode = internalKey e.key e.seq e.type := by
  have hlength := length_internalKey e.key e.seq e.type
  unfold Entry.encode MemTable.encodeEntry
  rw [Nat.mod_eq_of_lt h.key, List.append_assoc, ← hlength]
  exact lengthPrefixedSlice_encode (by rw [hlength]; exact h.key) _

theorem lengthPrefixedSlice_lookupKey {userKey : Bytes} (h : userKey.length + 8 < 2 ^ 32)
    (seq : ℕ) :
    lengthPrefixedSlice (lookupKey userKey seq) = internalKey userKey seq kValueTypeForSeek := by
  have hlength := length_internalKey userKey seq kValueTypeForSeek
  have hsmall : (internalKey userKey seq kValueTypeForSeek).length < 2 ^ 32 := by
    rw [hlength]
    exact h
  have hread := lengthPrefixedSlice_encode hsmall []
  rw [List.append_nil, hlength] at hread
  unfold lookupKey
  rw [Nat.mod_eq_of_lt h]
  exact hread

section Order
variable {userCompare : Bytes → Bytes → Ordering}

/- The order of the memtable: by key, and the newest entry first. -/
theorem entryCompare_eq {a b ka kb : Bytes} {sa ta sb tb : ℕ}
    (ha : lengthPrefixedSlice a = internalKey ka sa ta) (hsa : sa ≤ kMaxSequenceNumber)
    (hta : ta ≤ kTypeValue) (hb : lengthPrefixedSlice b = internalKey kb sb tb)
    (hsb : sb ≤ kMaxSequenceNumber) (htb : tb ≤ kTypeValue) :
    entryCompare userCompare a b =
      match userCompare ka kb with
      | .eq => if sb * 256 + tb < sa * 256 + ta then .lt
        else if sa * 256 + ta < sb * 256 + tb then .gt else .eq
      | r => r := by
  unfold entryCompare internalCompare
  rw [ha, hb, extractUserKey_internalKey, extractUserKey_internalKey,
    extractTag_internalKey ka hsa hta, extractTag_internalKey kb hsb htb]

/-- A comparator of images. -/
theorem transCmp_comap {α β : Type} {cmp : β → β → Ordering} [Std.TransCmp cmp] (f : α → β) :
    Std.TransCmp fun a b => cmp (f a) (f b) where
  eq_swap := Std.OrientedCmp.eq_swap
  isLE_trans := Std.TransCmp.isLE_trans

instance instTransCmpInternal [Std.TransCmp userCompare] :
    Std.TransCmp (internalCompare userCompare) := by
  have hkeys : Std.TransCmp fun a b => userCompare (extractUserKey a) (extractUserKey b) :=
    transCmp_comap extractUserKey
  have hdecreasing : Std.TransCmp fun a b : ℕ => compare b a := inferInstance
  have htags : Std.TransCmp fun a b => compare (extractTag b) (extractTag a) :=
    @transCmp_comap _ _ _ hdecreasing extractTag
  have hsame : internalCompare userCompare =
      compareLex (fun a b => userCompare (extractUserKey a) (extractUserKey b))
        (fun a b => compare (extractTag b) (extractTag a)) := by
    funext a b
    unfold internalCompare compareLex
    dsimp only
    cases userCompare (extractUserKey a) (extractUserKey b) with
    | lt => rfl
    | gt => rfl
    | eq =>
      show _ = compare (extractTag b) (extractTag a)
      rw [Nat.compare_eq_ite_lt]
  rw [hsame]
  infer_instance

instance instTransCmpEntry [Std.TransCmp userCompare] :
    Std.TransCmp (entryCompare userCompare) := transCmp_comap lengthPrefixedSlice

end Order

/-! ### What a memtable holds -/

/- The entries in the order in which they were added: their sequence numbers increase. -/
structure Stores (userCompare : Bytes → Bytes → Ordering) (m : MemTable) (entries : List Entry) :
    Prop where
  sorted : m.table.Sorted (entryCompare userCompare)
  keys : m.table.keys = entries.map Entry.encode
  fits : ∀ e ∈ entries, e.Fits
  increasing : entries.Pairwise fun e e' => e.seq < e'.seq

section Stores
variable {userCompare : Bytes → Bytes → Ordering} {m : MemTable} {entries : List Entry}

theorem stores_empty : Stores userCompare MemTable.empty [] where
  sorted := SkipList.sorted_empty
  keys := rfl
  fits := fun _ he => absurd he List.not_mem_nil
  increasing := List.Pairwise.nil

theorem entryCompare_entries {e e' : Entry} (h : e.Fits) (h' : e'.Fits) :
    entryCompare userCompare e.encode e'.encode =
      match userCompare e.key e'.key with
      | .eq => if e'.tag < e.tag then .lt else if e.tag < e'.tag then .gt else .eq
      | r => r :=
  entryCompare_eq (lengthPrefixedSlice_entry h) h.seq h.type (lengthPrefixedSlice_entry h') h'.seq
    h'.type

theorem entryCompare_lookup {e : Entry} (h : e.Fits) {userKey : Bytes}
    (hkey : userKey.length + 8 < 2 ^ 32) {seq : ℕ} (hseq : seq ≤ kMaxSequenceNumber) :
    entryCompare userCompare e.encode (lookupKey userKey seq) =
      match userCompare e.key userKey with
      | .eq => if seq * 256 + 1 < e.tag then .lt else if e.tag < seq * 256 + 1 then .gt else .eq
      | r => r :=
  entryCompare_eq (lengthPrefixedSlice_entry h) h.seq h.type
    (lengthPrefixedSlice_lookupKey hkey seq) hseq (Nat.le_refl _)

/- The entry reads back as it was written. -/
theorem getEntry_encode {e : Entry} (h : e.Fits) (userKey : Bytes) :
    MemTable.getEntry userCompare userKey e.encode =
      if userCompare e.key userKey = .eq then e.lookup else .miss := by
  have hlength := length_internalKey e.key e.seq e.type
  have hone : kTypeValue = 1 := rfl
  have htype := h.type
  have hdrop : (e.key ++ encodeFixed64 (packSequenceAndType e.seq e.type) ++
      (encodeVarint32 (e.value.length % 2 ^ 32) ++ e.value)).drop (e.key.length + 8) =
      encodeVarint32 (e.value.length % 2 ^ 32) ++ e.value := by
    rw [← hlength]
    exact List.drop_left
  have hvalue : lengthPrefixedSlice (encodeVarint32 (e.value.length % 2 ^ 32) ++ e.value) =
      e.value := by
    have hread := lengthPrefixedSlice_encode h.value []
    rw [List.append_nil] at hread
    rw [Nat.mod_eq_of_lt h.value]
    exact hread
  have hmask : e.tag &&& 0xff = e.type := by
    have hlow := Nat.and_two_pow_sub_one_eq_mod e.tag 8
    have hff : 2 ^ 8 - 1 = 0xff := rfl
    rw [hff] at hlow
    rw [hlow]
    unfold Entry.tag
    omega
  unfold Entry.tag at hmask
  unfold MemTable.getEntry Entry.encode MemTable.encodeEntry
  rw [Nat.mod_eq_of_lt h.key, List.append_assoc, getVarint32Ptr_encode h.key]
  dsimp only
  rw [Nat.add_sub_cancel, internalKey, List.append_assoc, List.take_left, List.drop_left,
    decodeFixed64_encode (packSequenceAndType_lt h.seq h.type), ← List.append_assoc, hdrop, hvalue,
    packSequenceAndType_eq e.seq h.type, hmask]
  by_cases hequal : userCompare e.key userKey = .eq
  · rw [if_pos hequal, if_pos hequal, Entry.lookup]
    by_cases hval : e.type = kTypeValue
    · rw [if_pos hval, if_pos hval]
    · have hdeletion : e.type = kTypeDeletion := by
        have hzero : kTypeDeletion = 0 := rfl
        omega
      rw [if_neg hval, if_neg hval, if_pos hdeletion]
  · rw [if_neg hequal, if_neg hequal]

/- The newest entry of a key that a snapshot sees. -/
def newest (userCompare : Bytes → Bytes → Ordering) (entries : List Entry) (userKey : Bytes)
    (seq : ℕ) : Option Entry :=
  entries.reverse.find? fun e => userCompare e.key userKey == .eq && decide (e.seq ≤ seq)

theorem newest_spec (h : entries.Pairwise fun e e' => e.seq < e'.seq) {userKey : Bytes} {seq : ℕ}
    {e : Entry} (he : newest userCompare entries userKey seq = some e) :
    e ∈ entries ∧ userCompare e.key userKey = .eq ∧ e.seq ≤ seq ∧
      ∀ e' ∈ entries, userCompare e'.key userKey = .eq → e'.seq ≤ seq →
        e' = e ∨ e'.seq < e.seq := by
  obtain ⟨hp, before, after, hsplit, hbefore⟩ := List.find?_eq_some_iff_append.mp he
  rw [Bool.and_eq_true, beq_iff_eq, decide_eq_true_eq] at hp
  have hmem : e ∈ entries := List.mem_of_find?_eq_some he |> List.mem_reverse.mp
  refine ⟨hmem, hp.1, hp.2, ?_⟩
  intro e' he' hkey hseq
  have hrev := List.pairwise_reverse.mpr h
  rw [hsplit, List.pairwise_append, List.pairwise_cons] at hrev
  have he'' : e' ∈ before ++ e :: after := by
    rw [← hsplit]
    exact List.mem_reverse.mpr he'
  rcases List.mem_append.mp he'' with hin | hin
  · have hnot := hbefore e' hin
    rw [hkey, decide_eq_true hseq] at hnot
    cases hnot
  · rcases List.mem_cons.mp hin with rfl | hin
    · exact Or.inl rfl
    · exact Or.inr (hrev.2.1.1 e' hin)

variable [Std.TransCmp userCompare]

theorem add_spec (h : Stores userCompare m entries) {e : Entry} (hfits : e.Fits)
    (hnewer : ∀ e' ∈ entries, e'.seq < e.seq) :
    ∃ m', m.add userCompare e.seq e.type e.key e.value = some m' ∧
      Stores userCompare m' (entries ++ [e]) := by
  obtain ⟨hpos, hle⟩ := randomHeight_range 1 m.rnd (Nat.le_refl 1) (Nat.le_add_left 1 11)
  have hfresh : ∀ a ∈ m.table.keys, entryCompare userCompare a e.encode ≠ .eq := by
    intro a ha
    rw [h.keys] at ha
    obtain ⟨e', he', rfl⟩ := List.mem_map.mp ha
    have hseq := hnewer e' he'
    have htype := (h.fits e' he').type
    have hone : kTypeValue = 1 := rfl
    rw [entryCompare_entries (h.fits e' he') hfits]
    have htag : e'.tag < e.tag := by
      unfold Entry.tag
      omega
    cases userCompare e'.key e.key with
    | lt => exact fun heq => by cases heq
    | gt => exact fun heq => by cases heq
    | eq =>
      dsimp only
      rw [if_neg (by omega), if_pos htag]
      decide
  obtain ⟨table, hinsert, hsorted, hkeys⟩ := SkipList.insert_spec h.sorted hpos hle hfresh
  refine ⟨{ table := table, rnd := (randomHeight 1 m.rnd).2 }, ?_, hsorted, ?_, ?_, ?_⟩
  · unfold MemTable.add
    dsimp only
    unfold Entry.encode at hinsert
    rw [hinsert, Option.map_some]
  · rw [hkeys, h.keys, List.map_append, List.map_singleton]
  · intro e' he'
    rcases List.mem_append.mp he' with he' | he'
    · exact h.fits e' he'
    · exact List.mem_singleton.mp he' ▸ hfits
  · rw [List.pairwise_append]
    refine ⟨h.increasing, List.pairwise_singleton _ _, ?_⟩
    intro e' he' e'' he''
    rw [List.mem_singleton.mp he'']
    exact hnewer e' he'

omit [Std.TransCmp userCompare] in
/- Of the entries of the key, those that the search does not go past are those that the snapshot
sees. -/
theorem not_before_lookup {e : Entry} (h : e.Fits) {userKey : Bytes}
    (hkey : userKey.length + 8 < 2 ^ 32) {seq : ℕ} (hseq : seq ≤ kMaxSequenceNumber)
    (hequal : userCompare e.key userKey = .eq) :
    entryCompare userCompare e.encode (lookupKey userKey seq) ≠ .lt ↔ e.seq ≤ seq := by
  have htype := h.type
  have hone : kTypeValue = 1 := rfl
  rw [entryCompare_lookup h hkey hseq, hequal]
  dsimp only
  unfold Entry.tag
  constructor
  · intro hnot
    by_contra hlate
    rw [if_pos (by omega)] at hnot
    exact hnot rfl
  · intro hearly
    rw [if_neg (by omega)]
    split <;> decide

/- An entry that the search does not go past and that is not behind the newest is the newest. -/
theorem newest_first (h : Stores userCompare m entries) {userKey : Bytes}
    (hkey : userKey.length + 8 < 2 ^ 32) {seq : ℕ} (hseq : seq ≤ kMaxSequenceNumber)
    {e e' : Entry} (hnewest : newest userCompare entries userKey seq = some e)
    (he' : e' ∈ entries)
    (hge : entryCompare userCompare e'.encode (lookupKey userKey seq) ≠ .lt)
    (hnotlt : entryCompare userCompare e.encode e'.encode ≠ .lt) : e' = e := by
  obtain ⟨he, hequal, -, hnewer⟩ := newest_spec h.increasing hnewest
  have hfits := h.fits e he
  have hfits' := h.fits e' he'
  have hequal' : userCompare e'.key userKey = .eq := by
    rw [entryCompare_lookup hfits' hkey hseq] at hge
    cases huser : userCompare e'.key userKey with
    | eq => rfl
    | lt =>
      rw [huser] at hge
      exact absurd rfl hge
    | gt =>
      -- An entry of a larger key is behind.
      have hlt : userCompare e.key e'.key = .lt := by
        rw [Std.TransCmp.congr_left hequal]
        exact Std.OrientedCmp.lt_of_gt huser
      rw [entryCompare_entries hfits hfits', hlt] at hnotlt
      exact absurd rfl hnotlt
  rcases hnewer e' he' hequal' ((not_before_lookup hfits' hkey hseq hequal').mp hge) with
    hsame | holder
  · exact hsame
  · have hboth : userCompare e.key e'.key = .eq :=
      Std.TransCmp.eq_trans hequal (Std.OrientedCmp.eq_symm hequal')
    have htype := hfits'.type
    have hone : kTypeValue = 1 := rfl
    rw [entryCompare_entries hfits hfits', hboth] at hnotlt
    dsimp only at hnotlt
    unfold Entry.tag at hnotlt
    rw [if_pos (by omega)] at hnotlt
    exact absurd rfl hnotlt

/-- `Get` finds the newest entry that the snapshot sees. -/
theorem get_spec (h : Stores userCompare m entries) {userKey : Bytes}
    (hkey : userKey.length + 8 < 2 ^ 32) {seq : ℕ} (hseq : seq ≤ kMaxSequenceNumber) :
    m.get userCompare userKey seq =
      some (((newest userCompare entries userKey seq).map Entry.lookup).getD .miss) := by
  obtain ⟨r, prev, hfound, -, -, hr⟩ :=
    SkipList.findGreaterOrEqual_spec h.sorted (lookupKey userKey seq)
  have hat : ∀ {i : ℕ} {a : Bytes}, m.table.key? i = some a → ∃ e ∈ entries, e.encode = a := by
    intro i a ha
    rw [SkipList.key?_eq, h.keys] at ha
    exact List.mem_map.mp (List.mem_of_getElem? ha)
  have hnode : ∀ e ∈ entries, ∃ i, m.table.key? i = some e.encode := by
    intro e he
    simp only [SkipList.key?_eq, h.keys]
    exact List.mem_iff_getElem?.mp (List.mem_map_of_mem he)
  unfold MemTable.get SkipList.seek
  rw [hfound, Option.map_some, Option.bind_eq_bind, Option.bind_some]
  cases hnewest : newest userCompare entries userKey seq with
  | none =>
    have hnone := List.find?_eq_none.mp hnewest
    cases r with
    | none => rfl
    | some j =>
      obtain ⟨b, hb, hge, -⟩ := hr
      obtain ⟨e, he, rfl⟩ := hat hb
      dsimp only
      rw [hb, Option.map_some, getEntry_encode (h.fits e he), if_neg]
      · rfl
      · intro hequal
        have hearly := (not_before_lookup (h.fits e he) hkey hseq hequal).mp hge
        have hnot := hnone e (List.mem_reverse.mpr he)
        rw [hequal, decide_eq_true hearly] at hnot
        exact hnot rfl
  | some e =>
    obtain ⟨he, hequal, hearly, -⟩ := newest_spec h.increasing hnewest
    obtain ⟨i, hi⟩ := hnode e he
    have hge := (not_before_lookup (h.fits e he) hkey hseq hequal).mpr hearly
    cases r with
    | none => exact absurd (hr i e.encode hi) hge
    | some j =>
      obtain ⟨b, hb, hbge, hfirst⟩ := hr
      obtain ⟨e', he', rfl⟩ := hat hb
      have hsame := newest_first h hkey hseq hnewest he' hbge (hfirst i e.encode hi hge)
      dsimp only
      rw [hb, hsame, Option.map_some, getEntry_encode (h.fits e he), if_pos hequal]
      rfl

end Stores

end PracticeApps.LevelDB
