import PracticeApps.CalculatorApp.Display

/-!
# What is typed and what is shown

A numeral as it should be shown is the keys typed without the points after the
first one. The point key is let through by the value shown so far, and a text
with a point may well denote a whole number.
-/

namespace PracticeApps.CalculatorApp
open DecimalText EventMachine

variable {D : Type}

/- The value of a text is whole, as `numButtonPressed` tests it. -/
def isWholeText (P : DoublePlatform D) (t : Text) : Bool :=
  match P.ofText t with
  | some value => P.beq (P.floor value) value
  | none => false

/-- What is documented of whole numerals: they read as numbers that are their own floor. -/
def DoublePlatform.ReadsWhole (P : DoublePlatform D) : Prop :=
  ∀ d : Decimal, d.fraction = none → isWholeText P d.text = true

/-- Every '.' after the first is removed. -/
def keepFirstPoint : Text → Text
  | [] => []
  | c :: t => if c = '.' then '.' :: t.filter (· ≠ '.') else c :: keepFirstPoint t

def typedKeys (ks : List NumberKey) : List Key := ks.map .number

def typedChars (ks : List NumberKey) : Text := ks.map NumberKey.char

/-- A point after the first one is pressed only while the value is not whole. -/
def LaterPointsFractional (P : DoublePlatform D) (ks : List NumberKey) : Prop :=
  ∀ u v, ks = u ++ .point :: v → .point ∈ u →
    isWholeText P (keepFirstPoint (typedChars u)) = false

/-! ### The points of a text -/

theorem keepFirstPoint_of_not_mem {t : Text} (h : '.' ∉ t) : keepFirstPoint t = t := by
  induction t with
  | nil => rfl
  | cons c t ih =>
    rw [List.mem_cons, not_or] at h
    unfold keepFirstPoint
    rw [if_neg (Ne.symm h.1), ih h.2]

theorem keepFirstPoint_split {w f : Text} (h : '.' ∉ w) :
    keepFirstPoint (w ++ '.' :: f) = w ++ '.' :: f.filter (· ≠ '.') := by
  induction w with
  | nil =>
    unfold keepFirstPoint
    rfl
  | cons c w ih =>
    rw [List.mem_cons, not_or] at h
    rw [List.cons_append, List.cons_append, keepFirstPoint, if_neg (Ne.symm h.1), ih h.2]

theorem keepFirstPoint_concat (t : Text) (c : Char) :
    keepFirstPoint (t ++ [c]) =
      if c = '.' ∧ '.' ∈ t then keepFirstPoint t else keepFirstPoint t ++ [c] := by
  induction t with
  | nil =>
    by_cases hc : c = '.' <;> simp [keepFirstPoint, hc]
  | cons b t ih =>
    rw [List.cons_append]
    unfold keepFirstPoint
    by_cases hb : b = '.'
    · by_cases hc : c = '.' <;> simp [hb, hc]
    · rw [if_neg hb, if_neg hb, ih]
      by_cases hc : c = '.' ∧ '.' ∈ t
      · rw [if_pos hc, if_pos ⟨hc.1, List.mem_cons_of_mem _ hc.2⟩]
      · have hc' : ¬ (c = '.' ∧ '.' ∈ b :: t) := by
          intro h
          apply hc
          refine ⟨h.1, ?_⟩
          simpa [Ne.symm hb] using h.2
        rw [if_neg hc, if_neg hc', List.cons_append]

theorem keepFirstPoint_sublist (t : Text) : (keepFirstPoint t).Sublist t := by
  induction t with
  | nil => exact List.Sublist.refl _
  | cons c t ih =>
    unfold keepFirstPoint
    split
    next hc =>
      rw [hc]
      exact List.filter_sublist.cons_cons _
    · exact ih.cons_cons _

theorem count_keepFirstPoint_le (t : Text) : (keepFirstPoint t).count '.' ≤ 1 := by
  induction t with
  | nil => simp [keepFirstPoint]
  | cons c t ih =>
    unfold keepFirstPoint
    split
    · have hnone : (t.filter (· ≠ '.')).count '.' = 0 := by
        rw [List.count_eq_zero]
        simp
      rw [List.count_cons_self, hnone]
    next hc =>
      rw [List.count_cons_of_ne hc]
      exact ih

/-! ### Typed keys -/

theorem typedChars_typed (ks : List NumberKey) : Typed (typedChars ks) := by
  intro c hc
  obtain ⟨k, _, rfl⟩ := List.mem_map.mp hc
  exact typed_char k _ (List.mem_singleton.mpr rfl)

theorem mem_typedChars_point {ks : List NumberKey} : '.' ∈ typedChars ks ↔ .point ∈ ks := by
  constructor
  · intro h
    obtain ⟨k, hk, hchar⟩ := List.mem_map.mp h
    cases k with
    | point => exact hk
    | digit d => exact absurd hchar (digit_char_ne_point d)
  · intro h
    exact List.mem_map.mpr ⟨.point, h, rfl⟩

theorem typedChars_concat (ks : List NumberKey) (k : NumberKey) :
    typedChars (ks ++ [k]) = typedChars ks ++ [k.char] := by
  simp [typedChars]

theorem laterPointsFractional_concat (P : DoublePlatform D) (ks : List NumberKey) (k : NumberKey) :
    LaterPointsFractional P (ks ++ [k]) ↔ LaterPointsFractional P ks ∧
      (k = .point → .point ∈ ks → isWholeText P (keepFirstPoint (typedChars ks)) = false) := by
  constructor
  · intro h
    constructor
    · intro u v hsplit hu
      exact h u (v ++ [k]) (by rw [hsplit, List.append_assoc, List.cons_append]) hu
    · intro hk hks
      exact h ks [] (by rw [hk]) hks
  · intro h u v hsplit hu
    rcases List.eq_nil_or_concat v with rfl | ⟨w, b, rfl⟩
    · obtain ⟨hks, hk⟩ := List.append_inj' hsplit rfl
      rw [← hks] at hu ⊢
      exact h.2 (List.singleton_inj.mp hk) hu
    · rw [List.concat_eq_append, ← List.cons_append, ← List.append_assoc] at hsplit
      exact h.1 u w (List.append_inj' hsplit rfl).1 hu

/- The keys of a numeral that starts with a digit denote a number. -/
theorem numeral_readable {P : DoublePlatform D} (hP : P.ReadsNumerals) (d : Fin 10)
    (ks : List NumberKey) : (P.ofText (keepFirstPoint (typedChars (.digit d :: ks)))).isSome := by
  have htyped : Typed (keepFirstPoint (typedChars (.digit d :: ks))) := fun c hc =>
    typedChars_typed _ c ((keepFirstPoint_sublist _).subset hc)
  rw [hP.typed htyped]
  refine ⟨⟨(NumberKey.digit d).char, ?_, digit_char_isDigit d⟩, count_keepFirstPoint_le _⟩
  show _ ∈ keepFirstPoint ((NumberKey.digit d).char :: typedChars ks)
  unfold keepFirstPoint
  rw [if_neg (digit_char_ne_point d)]
  exact List.mem_cons_self

/- Without a point the keys are a whole numeral. -/
theorem numeral_whole {P : DoublePlatform D} (hW : P.ReadsWhole) {d : Fin 10}
    {ks : List NumberKey} (h : .point ∉ NumberKey.digit d :: ks) :
    isWholeText P (keepFirstPoint (typedChars (.digit d :: ks))) = true := by
  rw [keepFirstPoint_of_not_mem (mem_typedChars_point.not.mpr h)]
  have hdigits : AllDigits (typedChars (.digit d :: ks)) := by
    intro c hc
    rcases typedChars_typed _ c hc with hc' | rfl
    · exact hc'
    · exact absurd (mem_typedChars_point.mp hc) h
  exact hW ⟨typedChars (.digit d :: ks), none, hdigits, by simp [AllDigits],
    by simp [typedChars]⟩ rfl

/-! ### Typing a numeral -/

section Typing
variable {P : DoublePlatform D}

/- The screen after a numeral has been typed as it should be. -/
def showing (s : ViewController D) (ks : List NumberKey) : ViewController D :=
  { s with displayLabel := keepFirstPoint (typedChars ks), isFinishedTypingNumber := false }

/- While a number is typed the text only grows. -/
theorem press_number_prefix {s r : ViewController D} {k : NumberKey}
    (hflag : s.isFinishedTypingNumber = false) (h : press P s (.number k) = .ok r) :
    r.isFinishedTypingNumber = false ∧ s.displayLabel <+: r.displayLabel := by
  cases k with
  | digit d =>
    rw [press_digit d hflag] at h
    cases h
    exact ⟨hflag, List.prefix_append _ _⟩
  | point =>
    cases hv : P.ofText s.displayLabel with
    | none => rw [press_point_unreadable hflag hv] at h; cases h
    | some value =>
      rw [press_point hflag hv] at h
      split at h <;> cases h
      · exact ⟨hflag, List.prefix_append _ _⟩
      · exact ⟨hflag, List.prefix_refl _⟩

theorem press_showing_digit (s : ViewController D) (ks : List NumberKey) (d : Fin 10) :
    press P (showing s ks) (.number (.digit d)) = .ok (showing s (ks ++ [.digit d])) := by
  rw [press_digit d rfl]
  unfold showing
  rw [typedChars_concat, keepFirstPoint_concat, if_neg (fun h => digit_char_ne_point d h.1)]

/- The point is appended if the value shown is whole, and ignored otherwise. -/
theorem press_showing_point (hP : P.ReadsNumerals) (s : ViewController D) (d : Fin 10)
    (ks : List NumberKey) :
    press P (showing s (.digit d :: ks)) (.number .point) =
      .ok (if isWholeText P (keepFirstPoint (typedChars (.digit d :: ks))) then
          { showing s (.digit d :: ks) with
            displayLabel := keepFirstPoint (typedChars (.digit d :: ks)) ++ ['.'] }
        else showing s (.digit d :: ks)) := by
  obtain ⟨value, hv⟩ := Option.isSome_iff_exists.mp (numeral_readable hP d ks)
  have hwhole : isWholeText P (keepFirstPoint (typedChars (.digit d :: ks))) =
      P.beq (P.floor value) value := by
    simp only [isWholeText, hv]
  rw [press_point (s := showing s (.digit d :: ks)) rfl hv, hwhole]
  split <;> rfl

/- One more key keeps the screen as it should be exactly when that key is not a
later point on a whole value; then it leaves two points. -/
theorem press_showing (hP : P.ReadsNumerals) (hW : P.ReadsWhole) (s : ViewController D) (d : Fin 10)
    (ks : List NumberKey) (k : NumberKey) :
    ∃ r, press P (showing s (.digit d :: ks)) (.number k) = .ok r ∧
      ((k = .point → .point ∈ NumberKey.digit d :: ks →
          isWholeText P (keepFirstPoint (typedChars (.digit d :: ks))) = false) →
        r = showing s (.digit d :: ks ++ [k])) ∧
      (¬ (k = .point → .point ∈ NumberKey.digit d :: ks →
          isWholeText P (keepFirstPoint (typedChars (.digit d :: ks))) = false) →
        r.isFinishedTypingNumber = false ∧ 2 ≤ r.displayLabel.count '.') := by
  cases k with
  | digit e =>
    refine ⟨_, press_showing_digit s _ e, fun _ => rfl, ?_⟩
    intro h
    exact absurd (fun he => by cases he) h
  | point =>
    refine ⟨_, press_showing_point hP s d ks, ?_, ?_⟩
    · intro hguard
      by_cases hpoint : .point ∈ NumberKey.digit d :: ks
      · rw [hguard rfl hpoint, if_neg Bool.false_ne_true]
        unfold showing
        rw [typedChars_concat, keepFirstPoint_concat,
          if_pos ⟨rfl, mem_typedChars_point.mpr hpoint⟩]
      · rw [numeral_whole hW hpoint, if_pos rfl]
        unfold showing
        rw [typedChars_concat, keepFirstPoint_concat,
          if_neg (fun h => hpoint (mem_typedChars_point.mp h.2))]
        rfl
    · intro hguard
      simp only [Classical.not_imp, Bool.not_eq_false] at hguard
      obtain ⟨_, hpoint, hwhole⟩ := hguard
      rw [hwhole, if_pos rfl]
      refine ⟨rfl, ?_⟩
      have hmem : '.' ∈ keepFirstPoint (typedChars (.digit d :: ks)) := by
        obtain ⟨w, f, hwf, hw⟩ := List.eq_append_cons_of_mem (mem_typedChars_point.mpr hpoint)
        rw [hwf, keepFirstPoint_split hw]
        simp
      show 2 ≤ (keepFirstPoint (typedChars (.digit d :: ks)) ++ ['.']).count '.'
      have hpos := List.count_pos_iff.mpr hmem
      rw [List.count_append, List.count_singleton_self]
      omega

/- Along the keys: the screen is as it should be, or it has two points for good. -/
theorem exec_typed (hP : P.ReadsNumerals) (hW : P.ReadsWhole) {s : ViewController D}
    (hflag : s.isFinishedTypingNumber = true) (d : Fin 10) (ks : List NumberKey) :
    (LaterPointsFractional P (.digit d :: ks) →
        exec (press P) s (typedKeys (.digit d :: ks)) = .ok (showing s (.digit d :: ks))) ∧
      (¬ LaterPointsFractional P (.digit d :: ks) →
        ∀ r, exec (press P) s (typedKeys (.digit d :: ks)) = .ok r →
          r.isFinishedTypingNumber = false ∧ 2 ≤ r.displayLabel.count '.') := by
  induction ks using List.reverseRecOn with
  | nil =>
    have hone : exec (press P) s (typedKeys [.digit d]) = .ok (showing s [.digit d]) := by
      show exec (press P) s [.number (.digit d)] = _
      rw [exec_singleton, press_first _ hflag]
      unfold showing
      rw [keepFirstPoint_of_not_mem (mem_typedChars_point.not.mpr (by simp))]
      rfl
    refine ⟨fun _ => hone, fun h => absurd ?_ h⟩
    intro u v hsplit hu
    rcases u with _ | ⟨_, u⟩
    · cases hu
    · simp at hsplit
  | append_singleton ks k ih =>
    obtain ⟨ihgood, ihbad⟩ := ih
    have hkeys : typedKeys (NumberKey.digit d :: ks ++ [k]) =
        typedKeys (.digit d :: ks) ++ [.number k] := by simp [typedKeys]
    have hguard := laterPointsFractional_concat P (.digit d :: ks) k
    rw [← List.cons_append, hguard, hkeys]
    obtain ⟨r, hr, hgood, hbad⟩ := press_showing hP hW s d ks k
    constructor
    · intro h
      rw [exec_concat_ok _ (ihgood h.1), hr, hgood h.2]
    · intro h q hq
      by_cases hks : LaterPointsFractional P (.digit d :: ks)
      · rw [exec_concat_ok _ (ihgood hks), hr] at hq
        cases hq
        exact hbad fun hk => h ⟨hks, hk⟩
      · obtain ⟨p, hp, hpq⟩ := exec_concat_inv hq
        obtain ⟨hpflag, hcount⟩ := ihbad hks p hp
        obtain ⟨hqflag, hshorter⟩ := press_number_prefix hpflag hpq
        exact ⟨hqflag, hcount.trans (hshorter.sublist.count_le '.')⟩

end Typing

/-- From any screen where a number is finished, keys that start with a digit show that
key sequence without its later points exactly when each later point is pressed while the
value shown is not whole. -/
theorem typed_numeral_shown_iff (P : DoublePlatform D) (hP : P.ReadsNumerals) (hW : P.ReadsWhole)
    (s : ViewController D) (hflag : s.isFinishedTypingNumber = true) (d : Fin 10)
    (ks : List NumberKey) :
    (∃ r, exec (press P) s (typedKeys (.digit d :: ks)) = .ok r ∧
        r.displayLabel = keepFirstPoint (typedChars (.digit d :: ks))) ↔
      LaterPointsFractional P (.digit d :: ks) := by
  obtain ⟨hgood, hbad⟩ := exec_typed hP hW hflag d ks
  constructor
  · intro h
    by_contra hguard
    obtain ⟨r, hr, hshown⟩ := h
    have hcount := (hbad hguard r hr).2
    have hle := count_keepFirstPoint_le (typedChars (.digit d :: ks))
    rw [hshown] at hcount
    omega
  · intro h
    exact ⟨_, hgood h, rfl⟩

/-! ### Exact values -/

theorem isWholeText_exact_iff {P : DoublePlatform ℚ} (hP : P.Exact) (d : Decimal) :
    isWholeText P d.text = true ↔ ∀ c ∈ d.fraction.getD [], c = '0' := by
  unfold isWholeText
  rw [hP.numeral]
  dsimp only
  rw [hP.beq, hP.floor, decide_eq_true_iff]
  exact d.floor_value_iff

theorem exact_readsWhole {P : DoublePlatform ℚ} (hP : P.Exact) : P.ReadsWhole := by
  intro d hd
  rw [isWholeText_exact_iff hP, hd]
  simp

theorem digit_char_eq_zero_iff (e : Fin 10) : (NumberKey.digit e).char = '0' ↔ e = 0 := by
  revert e; decide

/- A whole part, a point and whatever follows it but points. -/
theorem isWholeText_keepFirstPoint {P : DoublePlatform ℚ} (hP : P.Exact) {d : Fin 10}
    {ks w g : List NumberKey} (hks : NumberKey.digit d :: ks = w ++ .point :: g)
    (hw : .point ∉ w) :
    isWholeText P (keepFirstPoint (typedChars (w ++ .point :: g))) = false ↔
      ∃ e, .digit e ∈ g ∧ e ≠ 0 := by
  have hdigits : ∀ l : List NumberKey, AllDigits ((typedChars l).filter (· ≠ '.')) := by
    intro l c hc
    obtain ⟨hmem, hne⟩ := List.mem_filter.mp hc
    exact (typedChars_typed l c hmem).resolve_right (by simpa using hne)
  have hwhole : AllDigits (typedChars w) := by
    intro c hc
    refine (typedChars_typed w c hc).resolve_right ?_
    intro h
    rw [h] at hc
    exact hw (mem_typedChars_point.mp hc)
  have hne : typedChars w ++ (typedChars g).filter (· ≠ '.') ≠ [] := by
    cases w with
    | nil => cases hks
    | cons k w => simp [typedChars]
  have htext : keepFirstPoint (typedChars (w ++ .point :: g)) =
      Decimal.text ⟨typedChars w, some ((typedChars g).filter (· ≠ '.')), hwhole, hdigits g, hne⟩ := by
    rw [typedChars, List.map_append]
    exact keepFirstPoint_split (mem_typedChars_point.not.mpr hw)
  rw [htext, ← Bool.not_eq_true, isWholeText_exact_iff hP]
  simp only [Option.getD_some, not_forall]
  constructor
  · intro h
    obtain ⟨c, hc, hzero⟩ := h
    obtain ⟨hmem, hpoint⟩ := List.mem_filter.mp hc
    obtain ⟨k, hk, rfl⟩ := List.mem_map.mp hmem
    cases k with
    | point => simp [NumberKey.char] at hpoint
    | digit e => exact ⟨e, hk, fun he => hzero ((digit_char_eq_zero_iff e).mpr he)⟩
  · intro h
    obtain ⟨e, he, hzero⟩ := h
    refine ⟨(NumberKey.digit e).char, ?_, fun h => hzero ((digit_char_eq_zero_iff e).mp h)⟩
    refine List.mem_filter.mpr ⟨List.mem_map.mpr ⟨_, he, rfl⟩, ?_⟩
    simpa using digit_char_ne_point e

theorem digit_first {d : Fin 10} {ks w f v : List NumberKey}
    (h : NumberKey.digit d :: ks = w ++ .point :: f ++ v) :
    ∃ u, NumberKey.digit d :: u = w ++ .point :: f := by
  cases w with
  | nil => cases h
  | cons k w =>
    cases h
    exact ⟨_, rfl⟩

/-- With exact values the condition is on the keys: a digit other than 0 stands between
the first point and the second. -/
theorem laterPointsFractional_exact_iff {P : DoublePlatform ℚ} (hP : P.Exact) (d : Fin 10)
    (ks : List NumberKey) :
    LaterPointsFractional P (.digit d :: ks) ↔
      ∀ w f v, NumberKey.digit d :: ks = w ++ .point :: (f ++ .point :: v) → .point ∉ w →
        .point ∉ f → ∃ e, .digit e ∈ f ∧ e ≠ 0 := by
  constructor
  · intro h w f v hsplit hw _
    have hnot := h (w ++ .point :: f) v (by simp [hsplit]) (by simp)
    obtain ⟨u, hu⟩ := digit_first (v := .point :: v)
      (hsplit.trans (List.append_assoc w (.point :: f) (.point :: v)).symm)
    exact (isWholeText_keepFirstPoint hP hu hw).mp hnot
  · intro h u v hsplit hu
    obtain ⟨w, g, hwg, hw⟩ := List.eq_append_cons_of_mem hu
    rw [hwg] at hsplit
    obtain ⟨u', hu'⟩ := digit_first hsplit
    rw [hwg, isWholeText_keepFirstPoint hP hu' hw]
    by_cases hg : .point ∈ g
    · -- the second point comes before `v`
      obtain ⟨f, g', hfg, hf⟩ := List.eq_append_cons_of_mem hg
      obtain ⟨e, he, hzero⟩ := h w f (g' ++ .point :: v) (by simp [hsplit, hfg]) hw hf
      exact ⟨e, by rw [hfg]; exact List.mem_append_left _ he, hzero⟩
    · exact h w g v (by simp [hsplit]) hw hg

/- The second point of 1.05.2 is ignored. -/
theorem one_point_zero_five_shown :
    ∃ r, exec (press decimalPlatform) launch
        (typedKeys [.digit 1, .point, .digit 0, .digit 5, .point, .digit 2]) = .ok r ∧
      r.displayLabel = ['1', '.', '0', '5', '2'] := by
  refine (typed_numeral_shown_iff decimalPlatform decimalPlatform_reads
    (exact_readsWhole decimalPlatform_exact) launch rfl 1 _).mpr ?_
  refine (laterPointsFractional_exact_iff decimalPlatform_exact 1 _).mpr ?_
  intro w f v hsplit hw hf
  refine ⟨5, ?_, by decide⟩
  rcases w with _ | ⟨_, _ | ⟨_, w⟩⟩ <;> simp at hsplit hw
  · obtain ⟨_, hsplit⟩ := hsplit
    rcases f with _ | ⟨_, _ | ⟨_, f⟩⟩ <;> simp at hsplit ⊢
    exact Or.inr (Or.inl hsplit.2.1)
  · exact absurd hsplit.2.1 hw.2.1

/- The second point of 1.. is not. -/
theorem one_point_point_shown :
    ¬ ∃ r, exec (press decimalPlatform) launch (typedKeys [.digit 1, .point, .point]) = .ok r ∧
      r.displayLabel = keepFirstPoint (typedChars [.digit 1, .point, .point]) := by
  intro h
  obtain ⟨r, hr, hshown⟩ := h
  have hstate : exec (press decimalPlatform) launch (typedKeys [.digit 1, .point, .point]) =
      .ok ⟨['1', '.', '.'], false, Calculator.new⟩ := by decide +kernel
  rw [hstate] at hr
  cases hr
  exact absurd hshown (by decide +kernel)

end PracticeApps.CalculatorApp
