import Mathlib.Data.List.TakeWhile

/-!
# Percent encoding

Bytes that are allowed stand for themselves, and every other one for `%` with
two hexadecimal digits. A form is a list of fields, each a name and a value;
whoever decodes it reads `+` as a space.
-/

namespace PracticeApps.PercentEncoding

abbrev Text := List UInt8

def percent : UInt8 := 37
def ampersand : UInt8 := 38
def equalsSign : UInt8 := 61
def plus : UInt8 := 43
def space : UInt8 := 32

def hexDigit (n : ℕ) : UInt8 := UInt8.ofNat (if n < 10 then 48 + n else 55 + n)

def hexValue (c : UInt8) : Option ℕ :=
  if 48 ≤ c.toNat ∧ c.toNat ≤ 57 then some (c.toNat - 48)
  else if 65 ≤ c.toNat ∧ c.toNat ≤ 70 then some (c.toNat - 55)
  else if 97 ≤ c.toNat ∧ c.toNat ≤ 102 then some (c.toNat - 87)
  else none

def encodeByte (allowed : UInt8 → Bool) (b : UInt8) : Text :=
  if allowed b then [b] else [percent, hexDigit (b.toNat / 16), hexDigit (b.toNat % 16)]

def encode (allowed : UInt8 → Bool) (s : Text) : Text := s.flatMap (encodeByte allowed)

def decode : Text → Option Text
  | [] => some []
  | c :: rest =>
    if c = percent then
      match rest with
      | high :: low :: rest =>
        match hexValue high, hexValue low with
        | some a, some b => (decode rest).map fun s => UInt8.ofNat (16 * a + b) :: s
        | _, _ => none
      | _ => none
    else (decode rest).map fun s => c :: s

/-! ### Round trip -/

theorem hexValue_hexDigit {n : ℕ} (h : n < 16) : hexValue (hexDigit n) = some n := by
  have hall : ∀ m < 16, hexValue (hexDigit m) = some m := by decide
  exact hall n h

theorem decode_hex {b : UInt8} (rest : Text) :
    decode (percent :: hexDigit (b.toNat / 16) :: hexDigit (b.toNat % 16) :: rest) =
      (decode rest).map fun s => b :: s := by
  have hb := b.toNat_lt
  have hhigh : b.toNat / 16 < 16 := by omega
  have hlow : b.toNat % 16 < 16 := by omega
  have hsame : UInt8.ofNat (16 * (b.toNat / 16) + b.toNat % 16) = b := by
    rw [Nat.div_add_mod]
    exact UInt8.ofNat_toNat
  simp only [decode, if_true, hexValue_hexDigit hhigh, hexValue_hexDigit hlow, hsame]

variable {allowed : UInt8 → Bool}

theorem decode_cons {c : UInt8} (h : c ≠ percent) (rest : Text) :
    decode (c :: rest) = (decode rest).map fun s => c :: s := by
  rw [decode.eq_def]
  simp only [if_neg h]

theorem decode_encodeByte (h : allowed percent = false) (b : UInt8) (rest : Text) :
    decode (encodeByte allowed b ++ rest) = (decode rest).map fun s => b :: s := by
  unfold encodeByte
  split
  · rename_i hb
    have hne : b ≠ percent := by
      rintro rfl
      rw [h] at hb
      cases hb
    exact decode_cons hne rest
  · exact decode_hex rest

/-- What is encoded decodes to what it was. -/
theorem decode_encode (h : allowed percent = false) (s : Text) : decode (encode allowed s) = some s := by
  induction s with
  | nil => rfl
  | cons b s ih =>
    unfold encode at ih ⊢
    rw [List.flatMap_cons, decode_encodeByte h, ih]
    rfl

theorem encode_append (s s' : Text) :
    encode allowed (s ++ s') = encode allowed s ++ encode allowed s' := List.flatMap_append

theorem hexDigit_range {n : ℕ} (h : n < 16) :
    hexDigit n ≠ ampersand ∧ hexDigit n ≠ equalsSign ∧ hexDigit n ≠ plus := by
  have hall : ∀ m < 16, hexDigit m ≠ ampersand ∧ hexDigit m ≠ equalsSign ∧ hexDigit m ≠ plus := by
    decide
  exact hall n h

/-- A byte that is not allowed, and that no escape uses, does not come up. -/
theorem not_mem_encode {c : UInt8} (hpercent : c ≠ percent) (hdigit : ∀ n < 16, hexDigit n ≠ c)
    (h : allowed c = false) (s : Text) : c ∉ encode allowed s := by
  intro hmem
  obtain ⟨b, -, hb⟩ := List.mem_flatMap.mp hmem
  have hlt := b.toNat_lt
  unfold encodeByte at hb
  split at hb
  · rename_i hallowed
    rw [List.mem_singleton.mp hb, hallowed] at h
    cases h
  · simp only [List.mem_cons, List.not_mem_nil, or_false] at hb
    rcases hb with hb | hb | hb
    · exact hpercent hb
    · exact hdigit _ (by omega) hb.symm
    · exact hdigit _ (by omega) hb.symm

/-! ### Forms -/

def unplus (s : Text) : Text := s.map fun c => if c = plus then space else c

/- One field, split at the first equals sign. -/
def decodeField (piece : Text) : Option (Text × Text) :=
  let name := piece.takeWhile fun c => c ≠ equalsSign
  let value := (piece.dropWhile fun c => c ≠ equalsSign).tail
  match decode (unplus name), decode (unplus value) with
  | some name, some value => some (name, value)
  | _, _ => none

/- The fields of a form; empty pieces do not count. -/
def decodeForm (form : Text) : Option (List (Text × Text)) :=
  ((form.splitOn ampersand).filter fun piece => !piece.isEmpty).mapM decodeField

def encodeField (allowed : UInt8 → Bool) (field : Text × Text) : Text :=
  encode allowed field.1 ++ equalsSign :: encode allowed field.2

def encodeForm (allowed : UInt8 → Bool) (fields : List (Text × Text)) : Text :=
  [ampersand].intercalate (fields.map (encodeField allowed))

/- What has to be encoded. -/
structure Encodes (allowed : UInt8 → Bool) : Prop where
  percent : allowed percent = false
  ampersand : allowed ampersand = false
  equalsSign : allowed equalsSign = false
  plus : allowed plus = false

theorem ampersand_not_mem_encode (h : Encodes allowed) (s : Text) : ampersand ∉ encode allowed s :=
  not_mem_encode (by decide) (fun _ hn => (hexDigit_range hn).1) h.ampersand s

theorem equalsSign_not_mem_encode (h : Encodes allowed) (s : Text) :
    equalsSign ∉ encode allowed s :=
  not_mem_encode (by decide) (fun _ hn => (hexDigit_range hn).2.1) h.equalsSign s

/- No space comes from a plus sign that was one. -/
theorem unplus_encode (h : Encodes allowed) (s : Text) :
    unplus (encode allowed s) = encode allowed s := by
  have hnone : plus ∉ encode allowed s :=
    not_mem_encode (by decide) (fun _ hn => (hexDigit_range hn).2.2) h.plus s
  unfold unplus
  refine (List.map_congr_left fun c hc => ?_).trans (List.map_id _)
  have hne : c ≠ plus := by
    rintro rfl
    exact hnone hc
  exact if_neg hne

theorem decodeField_encodeField (h : Encodes allowed) (field : Text × Text) :
    decodeField (encodeField allowed field) = some field := by
  have hname : ∀ c ∈ encode allowed field.1, (fun c => decide (c ≠ equalsSign)) c = true := by
    intro c hc
    rw [decide_eq_true_eq]
    rintro rfl
    exact equalsSign_not_mem_encode h field.1 hc
  unfold decodeField encodeField
  dsimp only
  rw [List.takeWhile_append_of_pos hname, List.dropWhile_append_of_pos hname]
  simp [unplus_encode h, decode_encode h.percent]

theorem encodeField_ne_nil (field : Text × Text) : (encodeField allowed field).isEmpty = false := by
  unfold encodeField
  cases encode allowed field.1 <;> rfl

theorem ampersand_not_mem (h : Encodes allowed) (field : Text × Text) :
    ampersand ∉ encodeField allowed field := by
  unfold encodeField
  rw [List.mem_append, List.mem_cons]
  rintro (hname | hsign | hvalue)
  · exact ampersand_not_mem_encode h field.1 hname
  · exact absurd hsign (by decide)
  · exact ampersand_not_mem_encode h field.2 hvalue

/- Two forms one behind the other. -/
theorem decodeForm_append (form form' : Text) :
    decodeForm (form ++ ampersand :: form') =
      (decodeForm form).bind fun fields => (decodeForm form').map fun fields' => fields ++ fields' := by
  unfold decodeForm
  rw [List.splitOn_append_cons_self, List.filter_append, List.mapM_append]
  cases ((form.splitOn ampersand).filter fun piece => !piece.isEmpty).mapM decodeField with
  | none => rfl
  | some fields =>
    cases ((form'.splitOn ampersand).filter fun piece => !piece.isEmpty).mapM decodeField <;> rfl

theorem decodeForm_field (h : Encodes allowed) (field : Text × Text) :
    decodeForm (encodeField allowed field) = some [field] := by
  unfold decodeForm
  rw [List.splitOn_eq_singleton (ampersand_not_mem h field),
    List.filter_cons_of_pos (by rw [encodeField_ne_nil]; rfl), List.filter_nil, List.mapM_cons,
    decodeField_encodeField h]
  rfl

/-- A form is read back field by field. -/
theorem decodeForm_encodeForm (h : Encodes allowed) (fields : List (Text × Text)) :
    decodeForm (encodeForm allowed fields) = some fields := by
  induction fields with
  | nil => rfl
  | cons field fields ih =>
    cases fields with
    | nil =>
      have hone : encodeForm allowed [field] = encodeField allowed field := by simp [encodeForm]
      rw [hone, decodeForm_field h]
    | cons field' fields =>
      have hsplit : encodeForm allowed (field :: field' :: fields) =
          encodeField allowed field ++ ampersand :: encodeForm allowed (field' :: fields) := by
        simp [encodeForm, List.intercalate]
      rw [hsplit, decodeForm_append, ih, decodeForm_field h]
      rfl

end PracticeApps.PercentEncoding
