import PracticeApps.LevelDB.Log

/-!
# Reading the log back

What a writer appends, over any number of sessions, is what a reader returns.
If the file is cut off anywhere, the reader returns the records that are whole
and reports nothing.
-/

namespace PracticeApps.LevelDB

/-! ### Checksums -/

namespace Crc32c
variable (kByteExtensionTable : UInt8 → UInt32)

theorem unmask_mask (crc : UInt32) : unmask (mask crc) = crc := by
  unfold unmask mask
  dsimp only
  rw [UInt32.add_sub_cancel]
  apply UInt32.toBitVec_inj.mp
  simp only [UInt32.toBitVec_or, UInt32.toBitVec_shiftRight, UInt32.toBitVec_shiftLeft]
  ext i hi
  have hbeyond : crc.toBitVec.getLsbD (15 + (17 + i)) = false :=
    BitVec.getLsbD_of_ge _ _ (by omega)
  -- Bit `i` comes back from the left shift or from the right one.
  by_cases hlow : i < 15
  · simp [hlow, hbeyond, (by omega : 17 + i < 32)]
  · have hback : 15 + (i - 15) = i := by omega
    simp [hlow, hbeyond, (by omega : i - 15 < 17), hback, BitVec.getLsbD_eq_getElem hi]

theorem extend_value (t : UInt8) (payload : Bytes) :
    extend kByteExtensionTable (value kByteExtensionTable [t]) payload =
      value kByteExtensionTable (t :: payload) := by
  unfold value extend
  rw [UInt32.xor_assoc, UInt32.xor_self, UInt32.xor_zero]
  rfl

end Crc32c

namespace Log

variable (kByteExtensionTable : UInt8 → UInt32) (checksum : Bool)

/-! ### One physical record -/

theorem length_physicalRecord (t : ℕ) (payload : Bytes) :
    (physicalRecord kByteExtensionTable t payload).length = 7 + payload.length := by
  simp only [physicalRecord, encodeFixed32, List.length_append, LittleEndian.length_leBytes,
    List.length_cons, List.length_nil]

/- The header of a physical record in front of other bytes. -/
theorem header_length {t : ℕ} {payload : Bytes} (rest : Bytes) (hlength : payload.length < 65536) :
    ((physicalRecord kByteExtensionTable t payload ++ rest).getD 4 0).toNat |||
      (((physicalRecord kByteExtensionTable t payload ++ rest).getD 5 0).toNat <<< 8) =
        payload.length := by
  have hlow : payload.length &&& 255 = payload.length % 256 :=
    Nat.and_two_pow_sub_one_eq_mod payload.length 8
  have hhigh : payload.length >>> 8 = payload.length / 256 :=
    Nat.shiftRight_eq_div_pow payload.length 8
  show (UInt8.ofNat (payload.length &&& 255)).toNat |||
    ((UInt8.ofNat (payload.length >>> 8)).toNat <<< 8) = payload.length
  rw [UInt8.toNat_ofNat', UInt8.toNat_ofNat', hlow, hhigh,
    or_shift (Nat.mod_lt _ (by decide))]
  show payload.length % 256 % 256 + payload.length / 256 % 256 * 256 = payload.length
  omega

theorem parse_physical {t : ℕ} {payload rest : Bytes} {r : Reader} (ht : 1 ≤ t ∧ t ≤ 4)
    (hlength : payload.length < 65536)
    (hbuffer : r.buffer = physicalRecord kByteExtensionTable t payload ++ rest) :
    r.parse kByteExtensionTable checksum = ((t, payload), { r with buffer := rest }) := by
  have hheader := header_length kByteExtensionTable (t := t) rest hlength
  have hsize := length_physicalRecord kByteExtensionTable t payload
  have htype : charToUnsigned
      ((physicalRecord kByteExtensionTable t payload ++ rest).getD 6 0) = t := by
    show charToUnsigned (UInt8.ofNat t) = t
    unfold charToUnsigned
    rw [UInt8.toNat_ofNat', if_pos (by omega)]
    omega
  have hbody : ((physicalRecord kByteExtensionTable t payload ++ rest).drop 6).take
      (1 + payload.length) = UInt8.ofNat t :: payload := by
    show (UInt8.ofNat t :: (payload ++ rest)).take (1 + payload.length) = _
    rw [Nat.add_comm, List.take_succ_cons, List.take_left]
  have hfixed : UInt32.ofNat (decodeFixed32
      (physicalRecord kByteExtensionTable t payload ++ rest)) =
        Crc32c.mask (Crc32c.extend kByteExtensionTable
          (Crc32c.value kByteExtensionTable [UInt8.ofNat t]) payload) := by
    unfold physicalRecord
    rw [List.append_assoc, List.append_assoc, decodeFixed32_encode (UInt32.toNat_lt _)]
    exact UInt32.ofNat_toNat
  unfold Reader.parse
  dsimp only
  rw [hbuffer, hheader, htype, hbody, hfixed, Crc32c.unmask_mask, Crc32c.extend_value,
    if_neg (by rw [List.length_append, hsize]; unfold kHeaderSize; omega),
    if_neg (by unfold kZeroType; omega), if_neg (by simp)]
  have hpayload : ((physicalRecord kByteExtensionTable t payload ++ rest).drop kHeaderSize).take
      payload.length = payload := by
    show (payload ++ rest).take payload.length = payload
    exact List.take_left
  have hrest : (physicalRecord kByteExtensionTable t payload ++ rest).drop
      (kHeaderSize + payload.length) = rest := List.drop_left' hsize
  rw [hpayload, hrest]

/- The header is whole, the payload is not, and the file is at its end. -/
theorem parse_torn {t n : ℕ} {payload : Bytes} {r : Reader} (hlength : payload.length < 65536)
    (hheader : 7 ≤ n) (htorn : n < 7 + payload.length) (heof : r.eof = true)
    (hbuffer : r.buffer = (physicalRecord kByteExtensionTable t payload).take n) :
    r.parse kByteExtensionTable checksum = ((kEof, []), { r with buffer := [] }) := by
  have hsize := length_physicalRecord kByteExtensionTable t payload
  have hfields := header_length kByteExtensionTable (t := t) [] hlength
  rw [List.append_nil] at hfields
  have hkept : ∀ i, i < 7 → ((physicalRecord kByteExtensionTable t payload).take n).getD i 0 =
      (physicalRecord kByteExtensionTable t payload).getD i 0 := by
    intro i hi
    rw [List.getD_eq_getElem?_getD, List.getD_eq_getElem?_getD, List.getElem?_take_of_lt (by omega)]
  unfold Reader.parse
  dsimp only
  rw [hbuffer, hkept 4 (by omega), hkept 5 (by omega), hfields,
    if_pos (by rw [List.length_take, hsize]; unfold kHeaderSize; omega), if_pos heof]

/-! ### Where the reader stands -/

/- The reader stands at an offset `p` of a block and `rest` is what is left of the file. -/
structure At (p : ℕ) (rest : Bytes) (r : Reader) : Prop where
  buffer : r.buffer = rest.take (kBlockSize - p)
  file : r.file = rest.drop (kBlockSize - p)
  eof : r.eof = decide (rest.length < kBlockSize - p)

variable {p : ℕ} {rest : Bytes} {r : Reader}

theorem at_open (file : Bytes) : At kBlockSize file (Reader.open file) := ⟨rfl, rfl, rfl⟩

theorem fill_room (h : At p rest r) (hroom : 7 ≤ kBlockSize - p) : r.fill = r := by
  unfold Reader.fill
  refine if_neg fun hboth => ?_
  have hlength := congrArg List.length h.buffer
  rw [List.length_take] at hlength
  have hshort : rest.length < kBlockSize - p := by
    have := hboth.1
    unfold kHeaderSize at this
    omega
  exact hboth.2 (by rw [h.eof]; exact decide_eq_true hshort)

/- What is left of the block is the trailer. -/
theorem fill_trailer {trailer : Bytes} (h : At p (trailer ++ rest) r)
    (hlength : trailer.length = kBlockSize - p) (htrailer : kBlockSize - p < 7) :
    At 0 rest r.fill ∧ r.fill.drops = r.drops := by
  have hbuffer : r.buffer.length < kHeaderSize := by
    rw [h.buffer, List.length_take]
    unfold kHeaderSize
    omega
  have heof : ¬ r.eof = true := by
    rw [h.eof, decide_eq_true_iff, List.length_append]
    omega
  have hfill : r.fill = r.read := if_pos ⟨hbuffer, heof⟩
  have hfile : r.file = rest := by
    rw [h.file]
    exact List.drop_left' hlength
  rw [hfill]
  refine ⟨⟨?_, ?_, ?_⟩, rfl⟩
  · simp only [Reader.read, hfile, Nat.sub_zero]
  · simp only [Reader.read, hfile, Nat.sub_zero]
  · simp only [Reader.read, hfile, Nat.sub_zero, List.length_take]
    congr 1
    exact propext (by omega)

/- The file ends within what should be a header or a trailer. -/
theorem read_short (hshort : rest.length < 7) (hblock : rest.length < kBlockSize - p)
    (h : At p rest r) :
    ∃ r', r.readPhysicalRecord kByteExtensionTable checksum = ((kEof, []), r') ∧
      r'.drops = r.drops := by
  have hfill : r.fill = r := by
    refine if_neg fun hboth => hboth.2 ?_
    rw [h.eof]
    exact decide_eq_true hblock
  have hbuffer : r.buffer.length < kHeaderSize := by
    rw [h.buffer, List.length_take]
    unfold kHeaderSize
    omega
  unfold Reader.readPhysicalRecord
  dsimp only
  rw [hfill, if_pos hbuffer]
  exact ⟨_, rfl, rfl⟩

theorem read_room {t : ℕ} {payload : Bytes}
    (h : At p (physicalRecord kByteExtensionTable t payload ++ rest) r) (ht : 1 ≤ t ∧ t ≤ 4)
    (hfits : 7 + payload.length ≤ kBlockSize - p) :
    ∃ r', r.readPhysicalRecord kByteExtensionTable checksum = ((t, payload), r') ∧
      At (p + 7 + payload.length) rest r' ∧ r'.drops = r.drops := by
  have hsize := length_physicalRecord kByteExtensionTable t payload
  have hlength : payload.length < 65536 := by
    unfold kBlockSize at hfits
    omega
  have hleft : kBlockSize - p - (7 + payload.length) = kBlockSize - (p + 7 + payload.length) := by
    omega
  have hbuffer : r.buffer = physicalRecord kByteExtensionTable t payload ++
      rest.take (kBlockSize - (p + 7 + payload.length)) := by
    rw [h.buffer, List.take_append, List.take_of_length_le (by omega), hsize, hleft]
  have hfile : r.file = rest.drop (kBlockSize - (p + 7 + payload.length)) := by
    rw [h.file, List.drop_append, List.drop_of_length_le (by omega), hsize, hleft,
      List.nil_append]
  have heof : r.eof = decide (rest.length < kBlockSize - (p + 7 + payload.length)) := by
    rw [h.eof, List.length_append, hsize]
    congr 1
    exact propext (by omega)
  have hparse := parse_physical kByteExtensionTable checksum ht hlength hbuffer
  have hlong : ¬ r.buffer.length < kHeaderSize := by
    rw [hbuffer, List.length_append, hsize]
    unfold kHeaderSize
    omega
  unfold Reader.readPhysicalRecord
  dsimp only
  rw [fill_room h (by omega), if_neg hlong, hparse]
  exact ⟨_, rfl, ⟨rfl, hfile, heof⟩, rfl⟩

theorem read_room_torn {t n : ℕ} {payload : Bytes}
    (h : At p ((physicalRecord kByteExtensionTable t payload).take n) r)
    (hfits : 7 + payload.length ≤ kBlockSize - p) (htorn : n < 7 + payload.length) :
    ∃ r', r.readPhysicalRecord kByteExtensionTable checksum = ((kEof, []), r') ∧
      r'.drops = r.drops := by
  have hsize := length_physicalRecord kByteExtensionTable t payload
  have htaken : ((physicalRecord kByteExtensionTable t payload).take n).length = n := by
    rw [List.length_take, hsize]
    omega
  by_cases hheader : n < 7
  · exact read_short kByteExtensionTable checksum (by omega) (by omega) h
  · have hlength : payload.length < 65536 := by
      unfold kBlockSize at hfits
      omega
    have hbuffer : r.buffer = (physicalRecord kByteExtensionTable t payload).take n := by
      rw [h.buffer]
      exact List.take_of_length_le (by omega)
    have heof : r.eof = true := by
      rw [h.eof]
      exact decide_eq_true (by omega)
    have hparse := parse_torn kByteExtensionTable checksum hlength (by omega) htorn heof hbuffer
    have hlong : ¬ r.buffer.length < kHeaderSize := by
      rw [hbuffer, htaken]
      unfold kHeaderSize
      omega
    unfold Reader.readPhysicalRecord
    dsimp only
    rw [fill_room h (by omega), if_neg hlong, hparse]
    exact ⟨_, rfl, rfl⟩

/-! ### One fragment -/

/- The reader stands where the writer did; at the start of a block it may not have read it yet. -/
def InStep (w : Writer) (rest : Bytes) (r : Reader) : Prop :=
  At w.blockOffset rest r ∨ w.blockOffset = 0 ∧ At kBlockSize rest r

/- Reading goes on from the filled buffer. -/
theorem read_of_fill (hroom : 7 ≤ kBlockSize - p) (h : At p rest r.fill) :
    r.readPhysicalRecord kByteExtensionTable checksum =
      r.fill.readPhysicalRecord kByteExtensionTable checksum := by
  unfold Reader.readPhysicalRecord
  dsimp only
  rw [fill_room h hroom]

/-- The trailer, if there is one, is skipped; cut off, it ends the file. -/
theorem switchBlock_reads (w : Writer) :
    ∃ trailer, w.switchBlock.dest = w.dest ++ trailer ∧
      7 ≤ kBlockSize - w.switchBlock.blockOffset ∧
      (∀ rest r, InStep w (trailer ++ rest) r → ∃ q, At w.switchBlock.blockOffset rest q ∧
        q.drops = r.drops ∧ r.readPhysicalRecord kByteExtensionTable checksum =
          q.readPhysicalRecord kByteExtensionTable checksum) ∧
      ∀ rest r, rest.length < trailer.length → InStep w rest r →
        ∃ r', r.readPhysicalRecord kByteExtensionTable checksum = ((kEof, []), r') ∧
          r'.drops = r.drops := by
  rcases switchBlock_offset w with ⟨hblock, hroom⟩ | ⟨hblock, hshort⟩
  · rw [hblock]
    refine ⟨[], (List.append_nil _).symm, hroom, ?_, fun rest r hnone => by cases hnone⟩
    intro rest r hr
    rcases hr with hr | ⟨hstart, hr⟩
    · exact ⟨r, hr, rfl, rfl⟩
    · have hfull : kBlockSize - kBlockSize = ([] : Bytes).length := Nat.sub_self _
      obtain ⟨hfill, hdrops⟩ := fill_trailer hr hfull.symm (by rw [Nat.sub_self]; omega)
      rw [hstart]
      exact ⟨r.fill, hfill, hdrops, read_of_fill kByteExtensionTable checksum (by decide) hfill⟩
  · rw [hblock]
    have hlength : (List.replicate (32768 - w.blockOffset) (0 : UInt8)).length =
        kBlockSize - w.blockOffset := List.length_replicate
    have hlate : w.blockOffset ≠ 0 := by omega
    refine ⟨List.replicate (32768 - w.blockOffset) 0, rfl, by dsimp only; decide, ?_, ?_⟩
    · intro rest r hr
      rcases hr with hr | ⟨hstart, _⟩
      · obtain ⟨hfill, hdrops⟩ := fill_trailer hr hlength hshort
        exact ⟨r.fill, hfill, hdrops,
          read_of_fill kByteExtensionTable checksum (by decide) hfill⟩
      · exact absurd hstart hlate
    · intro rest r hcut hr
      rw [hlength] at hcut
      rcases hr with hr | ⟨hstart, _⟩
      · exact read_short kByteExtensionTable checksum (by unfold kBlockSize at hcut; omega) hcut hr
      · exact absurd hstart hlate

/- What an append does to the file: `E` is appended, and it is read back by `good`, or, cut off,
by `torn`. -/
structure Appends (w w' : Writer) (E : Bytes) (good torn : Reader → Reader → Prop) : Prop where
  dest : w'.dest = w.dest ++ E
  nonempty : E ≠ []
  whole : ∀ rest r, InStep w (E ++ rest) r →
    ∃ r', good r r' ∧ InStep w' rest r' ∧ r'.drops = r.drops
  cut : ∀ n r, n < E.length → InStep w (E.take n) r → ∃ r', torn r r' ∧ r'.drops = r.drops

/- One append behind another. -/
theorem Appends.trans {w w₁ w₂ : Writer} {E E' : Bytes}
    {good torn good' torn' good'' torn'' : Reader → Reader → Prop}
    (h : Appends w w₁ E good torn) (h' : Appends w₁ w₂ E' good' torn')
    (hgood : ∀ r q r', good r q → good' q r' → good'' r r')
    (htorn : ∀ r r', torn r r' → torn'' r r')
    (htorn' : ∀ r q r', good r q → torn' q r' → torn'' r r') :
    Appends w w₂ (E ++ E') good'' torn'' where
  dest := by rw [h'.dest, h.dest, List.append_assoc]
  nonempty := List.append_ne_nil_of_left_ne_nil h.nonempty E'
  whole := by
    intro rest r hr
    rw [List.append_assoc] at hr
    obtain ⟨q, hread, hq, hdrops⟩ := h.whole _ r hr
    obtain ⟨r', hread', hr', hdrops'⟩ := h'.whole rest q hq
    exact ⟨r', hgood r q r' hread hread', hr', hdrops'.trans hdrops⟩
  cut := by
    intro n r hn hr
    by_cases hfirst : n < E.length
    · rw [List.take_append_of_le_length (by omega)] at hr
      obtain ⟨r', hread, hdrops⟩ := h.cut n r hfirst hr
      exact ⟨r', htorn r r' hread, hdrops⟩
    · rw [List.take_append, List.take_of_length_le (by omega)] at hr
      rw [List.length_append] at hn
      obtain ⟨q, hread, hq, hdrops⟩ := h.whole _ r hr
      obtain ⟨r', hread', hdrops'⟩ := h'.cut _ q (by omega) hq
      exact ⟨r', htorn' r q r' hread hread', hdrops'.trans hdrops⟩

theorem addFragment_appends (isFirst : Bool) (ptr : Bytes) (w : Writer) :
    ∃ E chunk, chunk ++ (w.addFragment kByteExtensionTable isFirst ptr).2 = ptr ∧
      Appends w (w.addFragment kByteExtensionTable isFirst ptr).1 E
        (fun r r' => r.readPhysicalRecord kByteExtensionTable checksum =
          ((fragmentType isFirst
            (decide ((w.addFragment kByteExtensionTable isFirst ptr).2 = [])), chunk), r'))
        (fun r r' => r.readPhysicalRecord kByteExtensionTable checksum = ((kEof, []), r')) := by
  obtain ⟨trailer, hdest, hroom, hwhole, hcut⟩ :=
    switchBlock_reads kByteExtensionTable checksum w
  obtain ⟨n, hn⟩ : ∃ n, w.switchBlock.fragmentLength ptr.length = n := ⟨_, rfl⟩
  have hmin := fragmentLength_eq w.switchBlock ptr.length
  rw [hn] at hmin
  obtain ⟨t, ht⟩ : ∃ t, fragmentType isFirst (decide (ptr.length = n)) = t := ⟨_, rfl⟩
  have htype : 1 ≤ t ∧ t ≤ 4 := by
    rw [← ht]
    unfold fragmentType kFullType kFirstType kMiddleType kLastType
    split_ifs <;> omega
  have hlast : decide (ptr.length = n) = decide (ptr.drop n = []) := by
    congr 1
    rw [List.drop_eq_nil_iff]
    exact propext (by omega)
  have hchunk : (ptr.take n).length = n := by
    rw [List.length_take]
    omega
  have hfits : 7 + (ptr.take n).length ≤ kBlockSize - w.switchBlock.blockOffset := by
    unfold kBlockSize at hroom ⊢
    omega
  have hsize := length_physicalRecord kByteExtensionTable t (ptr.take n)
  have hwriter : w.addFragment kByteExtensionTable isFirst ptr =
      (w.switchBlock.emitPhysicalRecord kByteExtensionTable t (ptr.take n), ptr.drop n) := by
    unfold Writer.addFragment
    dsimp only
    rw [hn, ht]
  rw [hwriter]
  dsimp only
  rw [← hlast, ht]
  refine ⟨trailer ++ physicalRecord kByteExtensionTable t (ptr.take n), ptr.take n,
    List.take_append_drop n ptr, ⟨?_, ?_, ?_, ?_⟩⟩
  · simp only [Writer.emitPhysicalRecord, hdest, List.append_assoc]
  · refine List.append_ne_nil_of_right_ne_nil _ fun hnil => ?_
    rw [hnil, List.length_nil] at hsize
    omega
  · intro rest r hr
    rw [List.append_assoc] at hr
    obtain ⟨q, hq, hdrops, hsame⟩ := hwhole _ r hr
    obtain ⟨r', hread, hr', hdrops'⟩ := read_room kByteExtensionTable checksum hq htype hfits
    exact ⟨r', hsame.trans hread, Or.inl hr', hdrops'.trans hdrops⟩
  · intro k r hk hr
    rw [List.length_append, hsize] at hk
    by_cases htrailer : k < trailer.length
    · refine hcut _ r ?_ hr
      rw [List.length_take, List.length_append]
      omega
    · rw [List.take_append, List.take_of_length_le (by omega)] at hr
      obtain ⟨q, hq, hdrops, hsame⟩ := hwhole _ r hr
      obtain ⟨r', hread, hdrops'⟩ :=
        read_room_torn kByteExtensionTable checksum hq hfits (by omega)
      exact ⟨r', hsame.trans hread, hdrops'.trans hdrops⟩

/-! ### One record -/

theorem addFragments_more {isFirst : Bool} {ptr : Bytes} {w : Writer}
    (hmore : (w.addFragment kByteExtensionTable isFirst ptr).2 ≠ []) :
    w.addFragments kByteExtensionTable isFirst ptr =
      (w.addFragment kByteExtensionTable isFirst ptr).1.addFragments kByteExtensionTable false
        (w.addFragment kByteExtensionTable isFirst ptr).2 := by
  rw [Writer.addFragments, dif_pos (List.length_pos_iff.mpr hmore)]

theorem addFragments_last {isFirst : Bool} {ptr : Bytes} {w : Writer}
    (hlast : (w.addFragment kByteExtensionTable isFirst ptr).2 = []) :
    w.addFragments kByteExtensionTable isFirst ptr =
      (w.addFragment kByteExtensionTable isFirst ptr).1 := by
  rw [Writer.addFragments, dif_neg (by rw [hlast]; exact Nat.lt_irrefl 0)]

/- The switch on the fragment of a record that is being read. -/
theorem handleFragment_last (isFirst : Bool) (scratch chunk : Bytes) (r : Reader)
    (hscratch : isFirst = true → scratch = []) :
    r.handleFragment scratch (!isFirst) (fragmentType isFirst true) chunk =
      .done (some (scratch ++ chunk)) r := by
  cases isFirst with
  | true =>
    rw [hscratch rfl]
    rfl
  | false => rfl

theorem handleFragment_more (isFirst : Bool) (scratch chunk : Bytes) (r : Reader)
    (hscratch : isFirst = true → scratch = []) :
    r.handleFragment scratch (!isFirst) (fragmentType isFirst false) chunk =
      .again (scratch ++ chunk) true r := by
  cases isFirst with
  | true =>
    rw [hscratch rfl]
    rfl
  | false => rfl

theorem readFragments_eof {scratch : Bytes} {inFragmentedRecord : Bool} {r' : Reader}
    (h : r.readPhysicalRecord kByteExtensionTable checksum = ((kEof, []), r')) :
    r.readFragments kByteExtensionTable checksum scratch inFragmentedRecord = (none, r') := by
  apply readFragments_done
  unfold Reader.next
  dsimp only
  rw [h]
  exact handleFragment_eof scratch inFragmentedRecord [] r'

/-- The fragments of a record are put together again; cut off, they are dropped silently. -/
theorem addFragments_appends (isFirst : Bool) (ptr scratch : Bytes) (w : Writer)
    (hscratch : isFirst = true → scratch = []) :
    ∃ E, Appends w (w.addFragments kByteExtensionTable isFirst ptr) E
      (fun r r' => r.readFragments kByteExtensionTable checksum scratch (!isFirst) =
        (some (scratch ++ ptr), r'))
      (fun r r' => r.readFragments kByteExtensionTable checksum scratch (!isFirst) =
        (none, r')) := by
  induction hrounds : w.rounds ptr.length using Nat.strongRecOn
    generalizing isFirst ptr scratch w with
  | ind n ih =>
    obtain ⟨E, chunk, hptr, happend⟩ :=
      addFragment_appends kByteExtensionTable checksum isFirst ptr w
    have hround := addFragment_rounds kByteExtensionTable isFirst ptr w
    obtain ⟨w', left, hw'⟩ : ∃ w' left,
        w.addFragment kByteExtensionTable isFirst ptr = (w', left) := ⟨_, _, rfl⟩
    rw [hw'] at hptr happend hround
    dsimp only at hptr happend hround
    by_cases hlast : left = []
    · have hwriter := addFragments_last kByteExtensionTable (by rw [hw']; exact hlast)
      rw [hw'] at hwriter
      rw [hlast, List.append_nil] at hptr
      rw [hwriter]
      refine ⟨E, happend.dest, happend.nonempty, ?_, ?_⟩
      · intro rest r hr
        obtain ⟨r', hread, hr', hdrops⟩ := happend.whole rest r hr
        refine ⟨r', ?_, hr', hdrops⟩
        apply readFragments_done
        unfold Reader.next
        dsimp only
        rw [hread, decide_eq_true hlast, handleFragment_last isFirst scratch chunk r' hscratch, hptr]
      · intro k r hk hr
        obtain ⟨r', hread, hdrops⟩ := happend.cut k r hk hr
        exact ⟨r', readFragments_eof kByteExtensionTable checksum hread, hdrops⟩
    · have hwriter := addFragments_more kByteExtensionTable (by rw [hw']; exact hlast)
      rw [hw'] at hwriter
      obtain ⟨E', hrest⟩ := ih _ (hrounds ▸ hround (List.length_pos_iff.mpr hlast)) false left
        (scratch ++ chunk) w' (fun h => by cases h) rfl
      have hagain : ∀ r r' : Reader, r.readPhysicalRecord kByteExtensionTable checksum =
          ((fragmentType isFirst (decide (left = [])), chunk), r') →
          r.readFragments kByteExtensionTable checksum scratch (!isFirst) =
            r'.readFragments kByteExtensionTable checksum (scratch ++ chunk) true := by
        intro r r' hread
        apply readFragments_again
        unfold Reader.next
        dsimp only
        rw [hread, decide_eq_false hlast, handleFragment_more isFirst scratch chunk r' hscratch]
      rw [hwriter]
      refine ⟨E ++ E', happend.trans hrest ?_ ?_ ?_⟩
      · intro r q r' hread hread'
        rw [hagain r q hread, ← hptr, ← List.append_assoc]
        exact hread'
      · exact fun r r' hread => readFragments_eof kByteExtensionTable checksum hread
      · exact fun r q r' hread hread' => (hagain r q hread).trans hread'

/-! ### All records -/

def Writer.addRecords (w : Writer) (records : List Bytes) : Writer :=
  records.foldl (fun w record => w.addRecord kByteExtensionTable record) w

theorem addRecord_appends (w : Writer) (record : Bytes) :
    ∃ E, Appends w (w.addRecord kByteExtensionTable record) E
      (fun r r' => r.readRecord kByteExtensionTable checksum = (some record, r'))
      (fun r r' => r.readRecord kByteExtensionTable checksum = (none, r')) := by
  obtain ⟨E, happend⟩ :=
    addFragments_appends kByteExtensionTable checksum true record [] w fun _ => rfl
  exact ⟨E, happend⟩

theorem addRecords_dest (w : Writer) (records : List Bytes) :
    w.dest.length ≤ (w.addRecords kByteExtensionTable records).dest.length := by
  induction records generalizing w with
  | nil => exact Nat.le_refl _
  | cons record records ih =>
    obtain ⟨E, happend⟩ := addRecord_appends kByteExtensionTable true w record
    have hrest := ih (w.addRecord kByteExtensionTable record)
    rw [happend.dest, List.length_append] at hrest
    exact Nat.le_trans (Nat.le_add_right _ _) hrest

theorem readRecords_end {w : Writer} (h : InStep w [] r) :
    ∃ r', r.readRecords kByteExtensionTable checksum = ([], r') ∧ r'.drops = r.drops := by
  obtain ⟨r', hread, hdrops⟩ : ∃ r', r.readPhysicalRecord kByteExtensionTable checksum =
      ((kEof, []), r') ∧ r'.drops = r.drops := by
    obtain ⟨trailer, -, hroom, hwhole, hcut⟩ := switchBlock_reads kByteExtensionTable checksum w
    by_cases htrailer : trailer = []
    · obtain ⟨q, hq, hdrops, hsame⟩ := hwhole [] r (by rw [htrailer]; exact h)
      obtain ⟨r', hread, hdrops'⟩ := read_short kByteExtensionTable checksum
        (by rw [List.length_nil]; omega) (by rw [List.length_nil]; omega) hq
      exact ⟨r', hsame.trans hread, hdrops'.trans hdrops⟩
    · exact hcut [] r (List.length_pos_iff.mpr htrailer) h
  exact ⟨r', readRecords_none kByteExtensionTable
    (readFragments_eof kByteExtensionTable checksum hread), hdrops⟩

/-- Of what was appended `n` bytes are left: the records that end within them are read. -/
theorem addRecords_reads (records : List Bytes) (w : Writer) :
    ∃ E, (w.addRecords kByteExtensionTable records).dest = w.dest ++ E ∧
      ∀ n r, InStep w (E.take n) r → ∃ k r',
        r.readRecords kByteExtensionTable checksum = (records.take k, r') ∧
        r'.drops = r.drops ∧
        ∀ j, j ≤ records.length →
          ((w.addRecords kByteExtensionTable (records.take j)).dest.length ≤ w.dest.length + n ↔
            j ≤ k) := by
  induction records generalizing w with
  | nil =>
    refine ⟨[], (List.append_nil _).symm, fun n r hr => ?_⟩
    rw [List.take_nil] at hr
    obtain ⟨r', hread, hdrops⟩ := readRecords_end kByteExtensionTable checksum hr
    refine ⟨0, r', hread, hdrops, fun j hj => ?_⟩
    rw [List.take_nil]
    exact ⟨fun _ => hj, fun _ => Nat.le_add_right _ _⟩
  | cons record records ih =>
    obtain ⟨E, happend⟩ := addRecord_appends kByteExtensionTable checksum w record
    obtain ⟨E', hdest, hrest⟩ := ih (w.addRecord kByteExtensionTable record)
    have hlonger := congrArg List.length happend.dest
    rw [List.length_append] at hlonger
    have hpos := List.length_pos_iff.mpr happend.nonempty
    refine ⟨E ++ E', ?_, fun n r hr => ?_⟩
    · rw [← List.append_assoc, ← happend.dest]
      exact hdest
    · by_cases hfirst : n < E.length
      · rw [List.take_append_of_le_length (by omega)] at hr
        obtain ⟨r', hread, hdrops⟩ := happend.cut n r hfirst hr
        refine ⟨0, r', readRecords_none kByteExtensionTable hread, hdrops, fun j hj => ?_⟩
        cases j with
        | zero => exact ⟨fun _ => Nat.le_refl 0, fun _ => Nat.le_add_right _ _⟩
        | succ j =>
          have hgrown := addRecords_dest kByteExtensionTable
            (w.addRecord kByteExtensionTable record) (records.take j)
          rw [List.take_succ_cons, Writer.addRecords, List.foldl_cons]
          unfold Writer.addRecords at hgrown
          omega
      · rw [List.take_append, List.take_of_length_le (by omega)] at hr
        obtain ⟨q, hread, hq, hdrops⟩ := happend.whole _ r hr
        obtain ⟨k, r', hreads, hdrops', hcount⟩ := hrest _ q hq
        refine ⟨k + 1, r', ?_, hdrops'.trans hdrops, fun j hj => ?_⟩
        · rw [readRecords_some kByteExtensionTable hread, hreads]
          rfl
        · cases j with
          | zero =>
            exact ⟨fun _ => Nat.zero_le _, fun _ => Nat.le_add_right _ _⟩
          | succ j =>
            have hj' := hcount j (by rw [List.length_cons] at hj; omega)
            rw [List.take_succ_cons, Writer.addRecords, List.foldl_cons]
            unfold Writer.addRecords at hj'
            omega

/-! ### Sessions -/

/- A writer that knows where in a block its file ends. -/
structure OnFile (w : Writer) : Prop where
  le : w.blockOffset ≤ kBlockSize
  offset : w.dest.length % kBlockSize = w.blockOffset % kBlockSize

theorem addFragment_onFile (isFirst : Bool) (ptr : Bytes) {w : Writer} (h : OnFile w) :
    OnFile (w.addFragment kByteExtensionTable isFirst ptr).1 := by
  obtain ⟨hle, hoffset⟩ := h
  have hfragment := fragmentLength_eq w.switchBlock ptr.length
  unfold kBlockSize at *
  rcases switchBlock_offset w with ⟨hblock, hroom⟩ | ⟨hblock, htrailer⟩
  · rw [hblock] at hfragment
    constructor
    · simp only [Writer.addFragment, Writer.emitPhysicalRecord, hblock, List.length_take,
        kHeaderSize, kBlockSize]
      omega
    · simp only [Writer.addFragment, Writer.emitPhysicalRecord, hblock, List.length_take,
        List.length_append, length_physicalRecord, kHeaderSize, kBlockSize]
      omega
  · rw [hblock] at hfragment
    dsimp only at hfragment
    constructor
    · simp only [Writer.addFragment, Writer.emitPhysicalRecord, hblock, List.length_take,
        kHeaderSize, kBlockSize]
      omega
    · simp only [Writer.addFragment, Writer.emitPhysicalRecord, hblock, List.length_take,
        List.length_append, List.length_replicate, length_physicalRecord, kHeaderSize, kBlockSize]
      omega

theorem addFragments_onFile (isFirst : Bool) (ptr : Bytes) {w : Writer} (h : OnFile w) :
    OnFile (w.addFragments kByteExtensionTable isFirst ptr) := by
  induction hrounds : w.rounds ptr.length using Nat.strongRecOn generalizing isFirst ptr w with
  | ind n ih =>
    have hnext := addFragment_onFile kByteExtensionTable isFirst ptr h
    by_cases hlast : (w.addFragment kByteExtensionTable isFirst ptr).2 = []
    · rw [addFragments_last kByteExtensionTable hlast]
      exact hnext
    · rw [addFragments_more kByteExtensionTable hlast]
      exact ih _ (hrounds ▸ addFragment_rounds kByteExtensionTable isFirst ptr w
        (List.length_pos_iff.mpr hlast)) false _ hnext rfl

theorem addRecords_onFile (records : List Bytes) {w : Writer} (h : OnFile w) :
    OnFile (w.addRecords kByteExtensionTable records) := by
  induction records generalizing w with
  | nil => exact h
  | cons record records ih => exact ih (addFragments_onFile kByteExtensionTable true record h)

theorem onFile_open (file : Bytes) : OnFile (Writer.open file) := by
  constructor
  · exact Nat.le_of_lt (Nat.mod_lt _ (by decide))
  · exact (Nat.mod_mod _ _).symm

/- A writer at the end of a block goes on like one at the start of the next. -/
theorem addRecords_open (records : List Bytes) {w : Writer} (h : OnFile w) :
    ((Writer.open w.dest).addRecords kByteExtensionTable records).dest =
      (w.addRecords kByteExtensionTable records).dest := by
  by_cases hend : w.blockOffset = kBlockSize
  · cases records with
    | nil => rfl
    | cons record records =>
      have hopen : (Writer.open w.dest).switchBlock = w.switchBlock := by
        have hzero : w.dest.length % kBlockSize = 0 := by
          rw [h.offset, hend, Nat.mod_self]
        unfold Writer.open
        rw [hzero]
        unfold Writer.switchBlock
        dsimp only
        rw [hend, if_neg (by decide), if_pos (by decide), Nat.sub_self, List.replicate_zero,
          List.append_nil]
      have hsame : (Writer.open w.dest).addFragment kByteExtensionTable true record =
          w.addFragment kByteExtensionTable true record := by
        unfold Writer.addFragment
        rw [hopen]
      have hrecord : (Writer.open w.dest).addRecord kByteExtensionTable record =
          w.addRecord kByteExtensionTable record := by
        unfold Writer.addRecord
        by_cases hlast : (w.addFragment kByteExtensionTable true record).2 = []
        · rw [addFragments_last kByteExtensionTable hlast,
            addFragments_last kByteExtensionTable (by rw [hsame]; exact hlast), hsame]
        · rw [addFragments_more kByteExtensionTable hlast,
            addFragments_more kByteExtensionTable (by rw [hsame]; exact hlast), hsame]
      unfold Writer.addRecords
      rw [List.foldl_cons, List.foldl_cons, hrecord]
  · have hopen : Writer.open w.dest = w := by
      obtain ⟨dest, offset⟩ := w
      have hlt : offset < kBlockSize := Nat.lt_of_le_of_ne h.le hend
      have hoffset : dest.length % kBlockSize = offset := by
        rw [h.offset, Nat.mod_eq_of_lt hlt]
      unfold Writer.open
      rw [hoffset]
    rw [hopen]

/- The file after a number of sessions, each of which opens it and appends its records. -/
def writeSessions (sessions : List (List Bytes)) : Bytes :=
  sessions.foldl (fun file records =>
    ((Writer.open file).addRecords kByteExtensionTable records).dest) []

def written (records : List Bytes) : Bytes :=
  ((Writer.open []).addRecords kByteExtensionTable records).dest

/- It does not matter how the records are shared out among sessions. -/
theorem writeSessions_eq (sessions : List (List Bytes)) :
    writeSessions kByteExtensionTable sessions = written kByteExtensionTable sessions.flatten := by
  have hgeneral : ∀ (sessions : List (List Bytes)) (w : Writer), OnFile w →
      sessions.foldl (fun file records =>
        ((Writer.open file).addRecords kByteExtensionTable records).dest) w.dest =
        (w.addRecords kByteExtensionTable sessions.flatten).dest := by
    intro sessions
    induction sessions with
    | nil => exact fun w _ => rfl
    | cons records sessions ih =>
      intro w hw
      rw [List.foldl_cons, addRecords_open kByteExtensionTable records hw,
        ih _ (addRecords_onFile kByteExtensionTable records hw), List.flatten_cons]
      unfold Writer.addRecords
      rw [List.foldl_append]
  exact hgeneral sessions (Writer.open []) (onFile_open [])

/-- However the records are shared out among sessions, and wherever the file is then cut off:
the reader returns exactly the records whose last byte is left, in order, and reports no
corruption. -/
theorem log_survives_cut (sessions : List (List Bytes)) (n : ℕ) :
    ∃ k r, (Reader.open ((writeSessions kByteExtensionTable sessions).take n)).readRecords
        kByteExtensionTable checksum = (sessions.flatten.take k, r) ∧
      r.drops = [] ∧
      ∀ j, j ≤ sessions.flatten.length →
        ((written kByteExtensionTable (sessions.flatten.take j)).length ≤ n ↔ j ≤ k) := by
  obtain ⟨E, hdest, hreads⟩ :=
    addRecords_reads kByteExtensionTable checksum sessions.flatten (Writer.open [])
  have hfile : writeSessions kByteExtensionTable sessions = E := by
    rw [writeSessions_eq, written, hdest]
    rfl
  obtain ⟨k, r, hread, hdrops, hcount⟩ :=
    hreads n (Reader.open (E.take n)) (Or.inr ⟨rfl, at_open _⟩)
  refine ⟨k, r, by rw [hfile]; exact hread, hdrops, fun j hj => ?_⟩
  rw [← hcount j hj]
  have hempty : (Writer.open []).dest.length = 0 := rfl
  rw [hempty, Nat.zero_add]
  rfl

end Log

end PracticeApps.LevelDB
