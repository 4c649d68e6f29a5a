import PracticeApps.Library.LittleEndian

/-!
# coding.cc

Fixed and variable length numbers in byte strings. Numbers are natural ones,
cut to 32 or 64 bits where the source has those types; the machine is little
endian, so that fixed numbers are copied. A pointer that moves through a slice
is what is left of the slice.
-/

namespace PracticeApps.LevelDB
open LittleEndian

abbrev Bytes := List UInt8

def encodeFixed32 (value : ℕ) : Bytes := leBytes 4 value

def encodeFixed64 (value : ℕ) : Bytes := leBytes 8 value

def decodeFixed32 (ptr : Bytes) : ℕ := leValue (ptr.take 4)

def decodeFixed64 (ptr : Bytes) : ℕ := leValue (ptr.take 8)

/-! ### Varints -/

/- The bytes are those of the values cut to `unsigned char`. -/
def encodeVarint32 (v : ℕ) : Bytes :=
  if v < 1 <<< 7 then [UInt8.ofNat v]
  else if v < 1 <<< 14 then [UInt8.ofNat (v ||| 128), UInt8.ofNat (v >>> 7)]
  else if v < 1 <<< 21 then
    [UInt8.ofNat (v ||| 128), UInt8.ofNat ((v >>> 7) ||| 128), UInt8.ofNat (v >>> 14)]
  else if v < 1 <<< 28 then
    [UInt8.ofNat (v ||| 128), UInt8.ofNat ((v >>> 7) ||| 128), UInt8.ofNat ((v >>> 14) ||| 128),
      UInt8.ofNat (v >>> 21)]
  else
    [UInt8.ofNat (v ||| 128), UInt8.ofNat ((v >>> 7) ||| 128), UInt8.ofNat ((v >>> 14) ||| 128),
      UInt8.ofNat ((v >>> 21) ||| 128), UInt8.ofNat (v >>> 28)]

def encodeVarint64 (v : ℕ) : Bytes :=
  if 128 ≤ v then UInt8.ofNat (v ||| 128) :: encodeVarint64 (v >>> 7) else [UInt8.ofNat v]
termination_by v
decreasing_by
  rw [Nat.shiftRight_eq_div_pow]
  omega

/- The loops of both fallbacks, up to the last shift. -/
def getVarint (width last : ℕ) : ℕ → ℕ → Bytes → Option (ℕ × Bytes)
  | _, _, [] => none
  | shift, result, byte :: p =>
    if last < shift then none
    else if byte.toNat &&& 128 ≠ 0 then
      getVarint width last (shift + 7)
        ((result ||| ((byte.toNat &&& 127) <<< shift)) % 2 ^ width) p
    else some ((result ||| (byte.toNat <<< shift)) % 2 ^ width, p)

def getVarint32PtrFallback (p : Bytes) : Option (ℕ × Bytes) := getVarint 32 28 0 0 p

def getVarint32Ptr (p : Bytes) : Option (ℕ × Bytes) :=
  match p with
  | [] => getVarint32PtrFallback p
  | byte :: q =>
    if byte.toNat &&& 128 = 0 then some (byte.toNat, q) else getVarint32PtrFallback p

def getVarint64Ptr (p : Bytes) : Option (ℕ × Bytes) := getVarint 64 63 0 0 p

/-! ### Slices -/

def putLengthPrefixedSlice (value : Bytes) : Bytes :=
  encodeVarint32 (value.length % 2 ^ 32) ++ value

def getLengthPrefixedSlice (input : Bytes) : Option (Bytes × Bytes) :=
  match getVarint32Ptr input with
  | none => none
  | some (len, input) => if len ≤ input.length then some (input.take len, input.drop len) else none

/-! ### Round trips -/

theorem and_128_low {x : ℕ} (h : x < 128) : x &&& 128 = 0 := by
  have hall : ∀ y : Fin 128, y.val &&& 128 = 0 := by decide +kernel
  exact hall ⟨x, h⟩

theorem and_128_high {x : ℕ} (h : x < 128) : (x + 128) &&& 128 = 128 := by
  have hall : ∀ y : Fin 128, (y.val + 128) &&& 128 = 128 := by decide +kernel
  exact hall ⟨x, h⟩

theorem or_128 (v : ℕ) : (UInt8.ofNat (v ||| 128)).toNat = v % 128 + 128 := by
  have hall : ∀ y : Fin 256, y.val ||| 128 = y.val % 128 + 128 := by decide +kernel
  have hlow : v % 2 ^ 8 < 256 := Nat.mod_lt _ (by decide)
  rw [UInt8.toNat_ofNat', Nat.or_mod_two_pow, hall ⟨v % 2 ^ 8, hlow⟩]
  show v % 256 % 128 + 128 = v % 128 + 128
  omega

theorem or_shift {result shift : ℕ} (h : result < 2 ^ shift) (a : ℕ) :
    result ||| (a <<< shift) = result + a * 2 ^ shift := by
  rw [Nat.or_comm, ← Nat.shiftLeft_add_eq_or_of_lt h, Nat.shiftLeft_eq, Nat.add_comm]

theorem encodeVarint64_small {v : ℕ} (h : v < 128) : encodeVarint64 v = [UInt8.ofNat v] := by
  rw [encodeVarint64, if_neg (by omega)]

theorem encodeVarint64_large {v : ℕ} (h : 128 ≤ v) :
    encodeVarint64 v = UInt8.ofNat (v ||| 128) :: encodeVarint64 (v / 128) := by
  rw [encodeVarint64, if_pos h, Nat.shiftRight_eq_div_pow]

/-- The unrolled encoder is the loop. -/
theorem encodeVarint32_eq {v : ℕ} (h : v < 2 ^ 32) : encodeVarint32 v = encodeVarint64 v := by
  unfold encodeVarint32
  simp only [Nat.shiftRight_eq_div_pow, Nat.shiftLeft_eq, Nat.one_mul]
  by_cases h7 : v < 2 ^ 7
  · rw [if_pos h7, encodeVarint64_small h7]
  · rw [if_neg h7, encodeVarint64_large (by omega)]
    by_cases h14 : v < 2 ^ 14
    · rw [if_pos h14, encodeVarint64_small (by omega)]
    · rw [if_neg h14, encodeVarint64_large (by omega), Nat.div_div_eq_div_mul]
      by_cases h21 : v < 2 ^ 21
      · rw [if_pos h21, encodeVarint64_small (by omega)]
      · rw [if_neg h21, encodeVarint64_large (by omega), Nat.div_div_eq_div_mul]
        by_cases h28 : v < 2 ^ 28
        · rw [if_pos h28, encodeVarint64_small (by omega)]
        · rw [if_neg h28, encodeVarint64_large (by omega), Nat.div_div_eq_div_mul,
            encodeVarint64_small (by omega)]

/-- Each round of the loop takes seven bits; `k` rounds are done and `m` is the last. -/
theorem getVarint_encode (width m k v result : ℕ) (rest : Bytes) (hk : k ≤ m)
    (hv : v < 128 ^ (m + 1 - k)) (hresult : result < 2 ^ (7 * k))
    (hfits : result + v * 2 ^ (7 * k) < 2 ^ width) :
    getVarint width (7 * m) (7 * k) result (encodeVarint64 v ++ rest) =
      some (result + v * 2 ^ (7 * k), rest) := by
  induction v using Nat.strongRecOn generalizing k result with
  | ind v ih =>
    by_cases hsmall : v < 128
    · have hbyte : (UInt8.ofNat v).toNat = v := by
        rw [UInt8.toNat_ofNat']
        omega
      rw [encodeVarint64_small hsmall, List.singleton_append, getVarint, if_neg (by omega), hbyte,
        and_128_low hsmall, if_neg (not_not.mpr rfl), or_shift hresult,
        Nat.mod_eq_of_lt hfits]
    · have hlarge : 128 ≤ v := by omega
      have hmore : k < m := by
        by_contra hlast
        have hone : m + 1 - k = 1 := by omega
        rw [hone] at hv
        omega
      have hbyte := or_128 v
      have hpayload : (v % 128 + 128) &&& 127 = v % 128 := by
        have hmask := Nat.and_two_pow_sub_one_eq_mod (v % 128 + 128) 7
        have hseven : 2 ^ 7 - 1 = 127 := rfl
        rw [hseven] at hmask
        rw [hmask]
        omega
      have hpow : 2 ^ (7 * (k + 1)) = 128 * 2 ^ (7 * k) := by
        rw [Nat.mul_add, Nat.pow_add, Nat.mul_comm]
      have hsplit : v % 128 * 2 ^ (7 * k) + v / 128 * 2 ^ (7 * (k + 1)) = v * 2 ^ (7 * k) := by
        rw [hpow, ← Nat.mul_assoc, ← Nat.add_mul]
        congr 1
        omega
      have hnext : v / 128 < 128 ^ (m + 1 - (k + 1)) := by
        have hexp : m + 1 - k = (m + 1 - (k + 1)) + 1 := by omega
        rw [hexp, Nat.pow_succ] at hv
        exact Nat.div_lt_of_lt_mul (by rw [Nat.mul_comm]; exact hv)
      have hacc : result + v % 128 * 2 ^ (7 * k) < 2 ^ (7 * (k + 1)) := by
        have hle : v % 128 * 2 ^ (7 * k) ≤ 127 * 2 ^ (7 * k) :=
          Nat.mul_le_mul_right _ (by omega)
        omega
      rw [encodeVarint64_large hlarge, List.cons_append, getVarint, if_neg (by omega), hbyte,
        and_128_high (Nat.mod_lt v (by decide)), if_pos (by decide), hpayload, or_shift hresult,
        Nat.mod_eq_of_lt (by omega), ← Nat.mul_succ]
      rw [ih (v / 128) (by omega) (k + 1) _ (by omega) hnext hacc (by omega)]
      congr 2
      omega

theorem getVarint64Ptr_encode {v : ℕ} (h : v < 2 ^ 64) (rest : Bytes) :
    getVarint64Ptr (encodeVarint64 v ++ rest) = some (v, rest) := by
  have hread := getVarint_encode 64 9 0 v 0 rest (by omega) (by omega) (by omega) (by omega)
  simp only [Nat.mul_zero, Nat.pow_zero, Nat.mul_one, Nat.zero_add] at hread
  exact hread

theorem getVarint32Ptr_encode {v : ℕ} (h : v < 2 ^ 32) (rest : Bytes) :
    getVarint32Ptr (encodeVarint32 v ++ rest) = some (v, rest) := by
  have hread := getVarint_encode 32 4 0 v 0 rest (by omega) (by omega) (by omega) (by omega)
  simp only [Nat.mul_zero, Nat.pow_zero, Nat.mul_one, Nat.zero_add] at hread
  rw [encodeVarint32_eq h]
  by_cases hsmall : v < 128
  · have hbyte : (UInt8.ofNat v).toNat = v := by
      rw [UInt8.toNat_ofNat']
      omega
    rw [encodeVarint64_small hsmall, List.singleton_append, getVarint32Ptr, hbyte,
      and_128_low hsmall, if_pos rfl]
  · rw [encodeVarint64_large (by omega), List.cons_append] at hread ⊢
    rw [getVarint32Ptr, or_128, and_128_high (Nat.mod_lt v (by decide)), if_neg (by decide)]
    exact hread

theorem getLengthPrefixedSlice_put {value : Bytes} (h : value.length < 2 ^ 32) (rest : Bytes) :
    getLengthPrefixedSlice (putLengthPrefixedSlice value ++ rest) = some (value, rest) := by
  unfold getLengthPrefixedSlice putLengthPrefixedSlice
  rw [Nat.mod_eq_of_lt h, List.append_assoc, getVarint32Ptr_encode h]
  dsimp only
  rw [if_pos (by rw [List.length_append]; omega), List.take_left, List.drop_left]

theorem decodeFixed32_encode {value : ℕ} (h : value < 2 ^ 32) (rest : Bytes) :
    decodeFixed32 (encodeFixed32 value ++ rest) = value := by
  unfold decodeFixed32 encodeFixed32
  rw [List.take_left' (length_leBytes 4 value)]
  exact leValue_leBytes_of_lt h

theorem decodeFixed64_encode {value : ℕ} (h : value < 2 ^ 64) (rest : Bytes) :
    decodeFixed64 (encodeFixed64 value ++ rest) = value := by
  unfold decodeFixed64 encodeFixed64
  rw [List.take_left' (length_leBytes 8 value)]
  exact leValue_leBytes_of_lt h

end PracticeApps.LevelDB
