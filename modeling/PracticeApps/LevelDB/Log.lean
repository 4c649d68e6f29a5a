import PracticeApps.LevelDB.Coding

/-!
# log_writer.cc, log_reader.cc

The write-ahead log: records cut into fragments that do not cross a block. The
file operations succeed, and reading starts at the beginning of the file. The
table of the checksum is a parameter.
-/

namespace PracticeApps.LevelDB

/-! ### crc32c.cc -/

namespace Crc32c

def kCRC32Xor : UInt32 := 0xffffffff
def kMaskDelta : UInt32 := 0xa282ead8

variable (kByteExtensionTable : UInt8 → UInt32)

/- `STEP1` -/
def step (l : UInt32) (byte : UInt8) : UInt32 :=
  kByteExtensionTable (l.toUInt8 ^^^ byte) ^^^ (l >>> 8)

/- The strides of sixteen bytes give the same as a step for each byte. -/
def extend (crc : UInt32) (data : Bytes) : UInt32 :=
  (data.foldl (step kByteExtensionTable) (crc ^^^ kCRC32Xor)) ^^^ kCRC32Xor

def value (data : Bytes) : UInt32 := extend kByteExtensionTable 0 data

def mask (crc : UInt32) : UInt32 := ((crc >>> 15) ||| (crc <<< 17)) + kMaskDelta

def unmask (maskedCrc : UInt32) : UInt32 :=
  let rot := maskedCrc - kMaskDelta
  (rot >>> 17) ||| (rot <<< 15)

end Crc32c

namespace Log

/-! ### log_format.h -/

def kZeroType : ℕ := 0
def kFullType : ℕ := 1
def kFirstType : ℕ := 2
def kMiddleType : ℕ := 3
def kLastType : ℕ := 4
def kMaxRecordType : ℕ := kLastType
def kEof : ℕ := kMaxRecordType + 1
def kBadRecord : ℕ := kMaxRecordType + 2

def kBlockSize : ℕ := 32768
def kHeaderSize : ℕ := 4 + 2 + 1

variable (kByteExtensionTable : UInt8 → UInt32)

/-! ### The writer -/

structure Writer where
  dest : Bytes
  blockOffset : ℕ

/- `Writer(dest, dest_length)`; for an empty file also `Writer(dest)`. -/
def Writer.open (dest : Bytes) : Writer := { dest := dest, blockOffset := dest.length % kBlockSize }

/- The checksum of the type comes from `type_crc_`, that of the payload extends it. -/
def physicalRecord (t : ℕ) (payload : Bytes) : Bytes :=
  let crc := Crc32c.extend kByteExtensionTable
    (Crc32c.value kByteExtensionTable [UInt8.ofNat t]) payload
  encodeFixed32 (Crc32c.mask crc).toNat ++
    [UInt8.ofNat (payload.length &&& 0xff), UInt8.ofNat (payload.length >>> 8), UInt8.ofNat t] ++
    payload

def Writer.emitPhysicalRecord (w : Writer) (t : ℕ) (payload : Bytes) : Writer where
  dest := w.dest ++ physicalRecord kByteExtensionTable t payload
  blockOffset := w.blockOffset + kHeaderSize + payload.length

/- Fills the trailer of a block with zeros. -/
def Writer.switchBlock (w : Writer) : Writer :=
  let leftover := kBlockSize - w.blockOffset
  if leftover < kHeaderSize then
    { dest := w.dest ++ List.replicate leftover 0, blockOffset := 0 }
  else w

def Writer.avail (w : Writer) : ℕ := kBlockSize - w.blockOffset - kHeaderSize

def fragmentType (isFirst isLast : Bool) : ℕ :=
  if isFirst && isLast then kFullType
  else if isFirst then kFirstType
  else if isLast then kLastType
  else kMiddleType

def Writer.fragmentLength (w : Writer) (left : ℕ) : ℕ := if left < w.avail then left else w.avail

/- One round of the loop of `AddRecord`: the writer after it and what is left of the record. -/
def Writer.addFragment (isFirst : Bool) (ptr : Bytes) (w : Writer) : Writer × Bytes :=
  let w := w.switchBlock
  let fragmentLength := w.fragmentLength ptr.length
  let t := fragmentType isFirst (decide (ptr.length = fragmentLength))
  (w.emitPhysicalRecord kByteExtensionTable t (ptr.take fragmentLength), ptr.drop fragmentLength)

/- A header with nothing behind it ends a block. -/
def Writer.rounds (w : Writer) (left : ℕ) : ℕ :=
  2 * left + if w.blockOffset = kBlockSize - kHeaderSize then 1 else 0

theorem switchBlock_offset (w : Writer) :
    (w.switchBlock = w ∧ 7 ≤ 32768 - w.blockOffset) ∨
      (w.switchBlock = { dest := w.dest ++ List.replicate (32768 - w.blockOffset) 0, blockOffset := 0 } ∧
        32768 - w.blockOffset < 7) := by
  unfold Writer.switchBlock kBlockSize kHeaderSize
  dsimp only
  by_cases htrailer : 32768 - w.blockOffset < 4 + 2 + 1
  · rw [if_pos htrailer]
    exact Or.inr ⟨rfl, htrailer⟩
  · rw [if_neg htrailer]
    exact Or.inl ⟨rfl, by omega⟩

theorem fragmentLength_eq (w : Writer) (left : ℕ) :
    w.fragmentLength left = min left (32768 - w.blockOffset - 7) := by
  unfold Writer.fragmentLength Writer.avail kBlockSize kHeaderSize
  split <;> omega

theorem rounds_spec (w : Writer) (left : ℕ) :
    (w.blockOffset = 32761 ∧ w.rounds left = 2 * left + 1) ∨
      (w.blockOffset ≠ 32761 ∧ w.rounds left = 2 * left) := by
  unfold Writer.rounds kBlockSize kHeaderSize
  by_cases hlast : w.blockOffset = 32761
  · exact Or.inl ⟨hlast, by rw [if_pos hlast]⟩
  · exact Or.inr ⟨hlast, by rw [if_neg hlast, Nat.add_zero]⟩

theorem addFragment_offset (isFirst : Bool) (ptr : Bytes) (w : Writer) :
    (w.addFragment kByteExtensionTable isFirst ptr).1.blockOffset =
        w.switchBlock.blockOffset + 7 +
          min ptr.length (32768 - w.switchBlock.blockOffset - 7) ∧
      (w.addFragment kByteExtensionTable isFirst ptr).2.length =
        ptr.length - min ptr.length (32768 - w.switchBlock.blockOffset - 7) := by
  have hfragment := fragmentLength_eq w.switchBlock ptr.length
  simp only [Writer.addFragment, Writer.emitPhysicalRecord, List.length_drop,
    List.length_take, kHeaderSize]
  omega

theorem addFragment_rounds (isFirst : Bool) (ptr : Bytes) (w : Writer)
    (hmore : 0 < (w.addFragment kByteExtensionTable isFirst ptr).2.length) :
    (w.addFragment kByteExtensionTable isFirst ptr).1.rounds
        (w.addFragment kByteExtensionTable isFirst ptr).2.length < w.rounds ptr.length := by
  obtain ⟨hoffset, hleft⟩ := addFragment_offset kByteExtensionTable isFirst ptr w
  have hbefore := rounds_spec w ptr.length
  have hafter := rounds_spec (w.addFragment kByteExtensionTable isFirst ptr).1
    (w.addFragment kByteExtensionTable isFirst ptr).2.length
  rw [hleft] at hmore
  rcases switchBlock_offset w with ⟨hblock, hroom⟩ | ⟨hblock, htrailer⟩
  · rw [hblock] at hoffset hleft hmore
    omega
  · rw [hblock] at hoffset hleft hmore
    dsimp only at hoffset hleft hmore
    omega

/- The loop of `AddRecord`. -/
def Writer.addFragments (isFirst : Bool) (ptr : Bytes) (w : Writer) : Writer :=
  if _ : 0 < (w.addFragment kByteExtensionTable isFirst ptr).2.length then
    (w.addFragment kByteExtensionTable isFirst ptr).1.addFragments false
      (w.addFragment kByteExtensionTable isFirst ptr).2
  else (w.addFragment kByteExtensionTable isFirst ptr).1
termination_by w.rounds ptr.length
decreasing_by
  exact addFragment_rounds kByteExtensionTable isFirst ptr w (by assumption)

def Writer.addRecord (w : Writer) (slice : Bytes) : Writer :=
  w.addFragments kByteExtensionTable true slice

/-! ### The reader -/

structure Reader where
  file : Bytes
  buffer : Bytes
  eof : Bool
  /-- What the reporter was told: the bytes dropped and the reason. -/
  drops : List (ℕ × String)
  deriving DecidableEq

def Reader.open (file : Bytes) : Reader := { file := file, buffer := [], eof := false, drops := [] }

def Reader.reportCorruption (r : Reader) (bytes : ℕ) (reason : String) : Reader :=
  { r with drops := r.drops ++ [(bytes, reason)] }

/- `file_->Read(kBlockSize, &buffer_, backing_store_)` -/
def Reader.read (r : Reader) : Reader :=
  { r with
    file := r.file.drop kBlockSize
    buffer := r.file.take kBlockSize
    eof := decide ((r.file.take kBlockSize).length < kBlockSize) }

/- A `char` is signed. -/
def charToUnsigned (c : UInt8) : ℕ := if c.toNat < 128 then c.toNat else 2 ^ 32 - 256 + c.toNat

/- A buffer that is at least a header. -/
def Reader.parse (checksum : Bool) (r : Reader) : (ℕ × Bytes) × Reader :=
  let header := r.buffer
  let a := (header.getD 4 0).toNat
  let b := (header.getD 5 0).toNat
  let type := charToUnsigned (header.getD 6 0)
  let length := a ||| (b <<< 8)
  if r.buffer.length < kHeaderSize + length then
    if r.eof then ((kEof, []), { r with buffer := [] })
    else
      ((kBadRecord, []),
        { r with buffer := [] }.reportCorruption r.buffer.length "bad record length")
  else if type = kZeroType ∧ length = 0 then ((kBadRecord, []), { r with buffer := [] })
  else if checksum ∧ Crc32c.value kByteExtensionTable ((header.drop 6).take (1 + length)) ≠
      Crc32c.unmask (UInt32.ofNat (decodeFixed32 header)) then
    ((kBadRecord, []),
      { r with buffer := [] }.reportCorruption r.buffer.length "checksum mismatch")
  else
    ((type, (header.drop kHeaderSize).take length),
      { r with buffer := r.buffer.drop (kHeaderSize + length) })

/- The next block, if less than a header is left of this one. -/
def Reader.fill (r : Reader) : Reader := if r.buffer.length < kHeaderSize ∧ ¬ r.eof then r.read else r

/- The loop goes round at most twice: a read that leaves less than a header has set `eof_`. -/
def Reader.readPhysicalRecord (checksum : Bool) (r : Reader) : (ℕ × Bytes) × Reader :=
  let r := r.fill
  if r.buffer.length < kHeaderSize then ((kEof, []), { r with buffer := [] })
  else r.parse kByteExtensionTable checksum

def Reader.size (r : Reader) : ℕ := r.buffer.length + r.file.length

theorem fill_size (r : Reader) : r.fill.size ≤ r.size := by
  unfold Reader.fill
  split
  · simp only [Reader.size, Reader.read, List.length_take, List.length_drop]
    omega
  · exact Nat.le_refl _

/-- Whatever is not the end of the file takes bytes away. -/
theorem readPhysicalRecord_size (checksum : Bool) (r : Reader)
    (hmore : (r.readPhysicalRecord kByteExtensionTable checksum).1.1 ≠ kEof) :
    (r.readPhysicalRecord kByteExtensionTable checksum).2.size < r.size := by
  have hfill := fill_size r
  unfold Reader.readPhysicalRecord at *
  dsimp only at *
  by_cases hshort : r.fill.buffer.length < kHeaderSize
  · rw [if_pos hshort] at hmore
    exact absurd rfl hmore
  · rw [if_neg hshort] at hmore ⊢
    have hheader : 7 ≤ r.fill.buffer.length := Nat.le_of_not_lt hshort
    refine Nat.lt_of_lt_of_le ?_ hfill
    unfold Reader.parse at *
    dsimp only at *
    unfold Reader.size
    split
    · split <;> simp only [Reader.reportCorruption, List.length_nil] <;> omega
    · split
      · simp only [List.length_nil]
        omega
      · split
        · simp only [Reader.reportCorruption, List.length_nil]
          omega
        · simp only [List.length_drop, kHeaderSize]
          omega

/- What follows a physical record: a result, or another round with this `scratch` and this
`in_fragmented_record`. -/
inductive Next where
  | done (record : Option Bytes) (r : Reader)
  | again (scratch : Bytes) (inFragmentedRecord : Bool) (r : Reader)

/- The switch of `ReadRecord`. -/
def Reader.handleFragment (scratch : Bytes) (inFragmentedRecord : Bool) (recordType : ℕ)
    (fragment : Bytes) (r : Reader) : Next :=
  if recordType = kFullType then
    if inFragmentedRecord ∧ scratch ≠ [] then
      .done (some fragment) (r.reportCorruption scratch.length "partial record without end(1)")
    else .done (some fragment) r
  else if recordType = kFirstType then
    if inFragmentedRecord ∧ scratch ≠ [] then
      .again fragment true (r.reportCorruption scratch.length "partial record without end(2)")
    else .again fragment true r
  else if recordType = kMiddleType then
    if inFragmentedRecord then .again (scratch ++ fragment) true r
    else
      .again scratch false
        (r.reportCorruption fragment.length "missing start of fragmented record(1)")
  else if recordType = kLastType then
    if inFragmentedRecord then .done (some (scratch ++ fragment)) r
    else
      .again scratch false
        (r.reportCorruption fragment.length "missing start of fragmented record(2)")
  else if recordType = kEof then .done none r
  else if recordType = kBadRecord then
    if inFragmentedRecord then
      .again [] false (r.reportCorruption scratch.length "error in middle of record")
    else .again scratch false r
  else
    .again [] false
      (r.reportCorruption (fragment.length + if inFragmentedRecord then scratch.length else 0)
        ("unknown record type " ++ toString recordType))

def Next.reader : Next → Reader
  | .done _ r => r
  | .again _ _ r => r

/- Reports leave the bytes alone. -/
theorem handleFragment_size (scratch : Bytes) (inFragmentedRecord : Bool) (recordType : ℕ)
    (fragment : Bytes) (r : Reader) :
    (r.handleFragment scratch inFragmentedRecord recordType fragment).reader.size = r.size := by
  unfold Reader.handleFragment
  split_ifs <;> rfl

theorem handleFragment_eof (scratch : Bytes) (inFragmentedRecord : Bool) (fragment : Bytes)
    (r : Reader) : r.handleFragment scratch inFragmentedRecord kEof fragment = .done none r := rfl

def Reader.next (checksum : Bool) (scratch : Bytes) (inFragmentedRecord : Bool) (r : Reader) :
    Next :=
  let read := r.readPhysicalRecord kByteExtensionTable checksum
  read.2.handleFragment scratch inFragmentedRecord read.1.1 read.1.2

/-- Each round takes bytes away, except for the last one at the end of the file. -/
theorem next_size (checksum : Bool) (scratch : Bytes) (inFragmentedRecord : Bool) (r : Reader) :
    (r.next kByteExtensionTable checksum scratch inFragmentedRecord).reader.size < r.size ∨
      ∃ r', r.next kByteExtensionTable checksum scratch inFragmentedRecord = .done none r' := by
  unfold Reader.next
  dsimp only
  by_cases heof : (r.readPhysicalRecord kByteExtensionTable checksum).1.1 = kEof
  · right
    rw [heof, handleFragment_eof]
    exact ⟨_, rfl⟩
  · left
    rw [handleFragment_size]
    exact readPhysicalRecord_size kByteExtensionTable checksum r heof

theorem again_size {checksum : Bool} {scratch scratch' : Bytes} {inFragmentedRecord flag : Bool}
    {r r' : Reader}
    (h : r.next kByteExtensionTable checksum scratch inFragmentedRecord = .again scratch' flag r') :
    r'.size < r.size := by
  have hsize := next_size kByteExtensionTable checksum scratch inFragmentedRecord r
  rw [h] at hsize
  rcases hsize with hsize | ⟨q, hq⟩
  · exact hsize
  · cases hq

/- The loop of `ReadRecord`. -/
def Reader.readFragments (checksum : Bool) (scratch : Bytes) (inFragmentedRecord : Bool)
    (r : Reader) : Option Bytes × Reader :=
  match _ : r.next kByteExtensionTable checksum scratch inFragmentedRecord with
  | .done record r => (record, r)
  | .again scratch inFragmentedRecord r => r.readFragments checksum scratch inFragmentedRecord
termination_by r.size
decreasing_by exact again_size kByteExtensionTable (by assumption)

def Reader.readRecord (checksum : Bool) (r : Reader) : Option Bytes × Reader :=
  r.readFragments kByteExtensionTable checksum [] false

theorem readFragments_done {checksum : Bool} {scratch : Bytes} {inFragmentedRecord : Bool}
    {r r' : Reader} {record : Option Bytes}
    (h : r.next kByteExtensionTable checksum scratch inFragmentedRecord = .done record r') :
    r.readFragments kByteExtensionTable checksum scratch inFragmentedRecord = (record, r') := by
  rw [Reader.readFragments]
  split
  · rename_i h'
    rw [h] at h'
    cases h'
    rfl
  · rename_i h'
    rw [h] at h'
    cases h'

theorem readFragments_again {checksum : Bool} {scratch scratch' : Bytes}
    {inFragmentedRecord flag : Bool} {r r' : Reader}
    (h : r.next kByteExtensionTable checksum scratch inFragmentedRecord = .again scratch' flag r') :
    r.readFragments kByteExtensionTable checksum scratch inFragmentedRecord =
      r'.readFragments kByteExtensionTable checksum scratch' flag := by
  rw [Reader.readFragments]
  split
  · rename_i h'
    rw [h] at h'
    cases h'
  · rename_i h'
    rw [h] at h'
    cases h'
    rfl

theorem readFragments_size (checksum : Bool) (scratch : Bytes) (inFragmentedRecord : Bool)
    (r : Reader) {record : Bytes} {r' : Reader}
    (h : r.readFragments kByteExtensionTable checksum scratch inFragmentedRecord =
      (some record, r')) : r'.size < r.size := by
  induction hn : r.size using Nat.strongRecOn generalizing scratch inFragmentedRecord r with
  | ind n ih =>
    have hsize := next_size kByteExtensionTable checksum scratch inFragmentedRecord r
    cases hnext : r.next kByteExtensionTable checksum scratch inFragmentedRecord with
    | done record' q =>
      rw [readFragments_done kByteExtensionTable hnext] at h
      cases h
      rw [hnext] at hsize
      rcases hsize with hsize | ⟨q', hq'⟩
      · exact hn ▸ hsize
      · cases hq'
    | again scratch' flag q =>
      have hless := again_size kByteExtensionTable hnext
      rw [readFragments_again kByteExtensionTable hnext] at h
      exact Nat.lt_trans (ih q.size (hn ▸ hless) scratch' flag q h rfl) (hn ▸ hless)

/- `while (reader.ReadRecord(&record, &scratch))` -/
def Reader.readRecords (checksum : Bool) (r : Reader) : List Bytes × Reader :=
  match _ : r.readRecord kByteExtensionTable checksum with
  | (none, r) => ([], r)
  | (some record, r) => (record :: (r.readRecords checksum).1, (r.readRecords checksum).2)
termination_by r.size
decreasing_by
  all_goals exact readFragments_size kByteExtensionTable checksum [] false _ (by assumption)

theorem readRecords_none {checksum : Bool} {r r' : Reader}
    (h : r.readRecord kByteExtensionTable checksum = (none, r')) :
    r.readRecords kByteExtensionTable checksum = ([], r') := by
  rw [Reader.readRecords]
  split
  · rename_i h'
    rw [h] at h'
    cases h'
    rfl
  · rename_i h'
    rw [h] at h'
    cases h'

theorem readRecords_some {checksum : Bool} {r r' : Reader} {record : Bytes}
    (h : r.readRecord kByteExtensionTable checksum = (some record, r')) :
    r.readRecords kByteExtensionTable checksum =
      (record :: (r'.readRecords kByteExtensionTable checksum).1,
        (r'.readRecords kByteExtensionTable checksum).2) := by
  rw [Reader.readRecords]
  split
  · rename_i h'
    rw [h] at h'
    cases h'
  · rename_i h'
    rw [h] at h'
    cases h'
    rfl

end Log

end PracticeApps.LevelDB
