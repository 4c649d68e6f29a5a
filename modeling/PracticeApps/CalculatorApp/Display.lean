import PracticeApps.CalculatorApp.ViewController

/-!
# The display stays readable

When the text of the label is one that `Double(String)` accepts. A number being
typed is a text of digits and points, so it stays readable as long as it has a
digit and one point at most; every other text was printed by `clean`. The guard
of the point key asks for the value, not for the text: it lets a point through
as the first key of a number and after a number such as `1.` or `1.0`.
-/

namespace PracticeApps.CalculatorApp
open DecimalText EventMachine

variable {D : Type}

/- The getter of `displayValue` would not trap on this outcome. The trap of '='
without a pending operation ends the run and is left out here. -/
def Readable (P : DoublePlatform D) : Except Trap (ViewController D) → Prop
  | .ok s => (P.ofText s.displayLabel).isSome
  | .error t => t = .nilResult

/-- Every display text of the run is readable, and the getter never traps. -/
def DisplaySafe (P : DoublePlatform D) (keys : List Key) : Prop :=
  Accepted (Readable P) (press P) launch keys

def wholeOnDisplay (P : DoublePlatform D) (s : ViewController D) : Bool :=
  match P.ofText s.displayLabel with
  | some value => P.beq (P.floor value) value
  | none => false

/-- The point key is not the first key of a number, and the number being typed
has no point yet or is not whole. -/
def PointGuarded (P : DoublePlatform D) (s : ViewController D) (k : Key) : Prop :=
  k = .number .point → s.isFinishedTypingNumber = false ∧
    ('.' ∈ s.displayLabel → wholeOnDisplay P s = false)

instance (P : DoublePlatform D) (s : ViewController D) (k : Key) :
    Decidable (PointGuarded P s k) := by unfold PointGuarded; infer_instance

/- What is typed while a number is not finished. -/
def TypedWhileTyping (s : ViewController D) : Prop :=
  s.isFinishedTypingNumber = false → Typed s.displayLabel

/-! ### Typed texts -/

theorem typed_char (k : NumberKey) : Typed [k.char] := by
  intro c hc
  rw [List.mem_singleton.mp hc]
  cases k with
  | point => exact Or.inr rfl
  | digit d => exact Or.inl (digit_char_isDigit d)

theorem typed_append {t u : Text} (ht : Typed t) (hu : Typed u) : Typed (t ++ u) := by
  intro c hc
  rcases List.mem_append.mp hc with h | h
  · exact ht c h
  · exact hu c h

section Texts
variable {P : DoublePlatform D} (hP : P.ReadsNumerals)
include hP

theorem readable_digit (d : Fin 10) : (P.ofText [(NumberKey.digit d).char]).isSome := by
  rw [hP.typed (typed_char _)]
  refine ⟨⟨_, List.mem_singleton.mpr rfl, digit_char_isDigit d⟩, ?_⟩
  exact (List.count_le_length (l := [(NumberKey.digit d).char])).trans le_rfl

theorem unreadable_point : (P.ofText ['.']).isSome = false := by
  have hdigit : ∀ c ∈ ['.'], c.isDigit = false := by simp
  rw [hP.noDigit ['.'] (typed_char .point) hdigit]
  rfl

theorem readable_append_digit {t : Text} (ht : Typed t) (hr : (P.ofText t).isSome) (d : Fin 10) :
    (P.ofText (t ++ [(NumberKey.digit d).char])).isSome := by
  rw [hP.typed ht] at hr
  rw [hP.typed (typed_append ht (typed_char _))]
  obtain ⟨⟨c, hc, hcd⟩, hdots⟩ := hr
  refine ⟨⟨c, List.mem_append_left _ hc, hcd⟩, ?_⟩
  rw [List.count_append, List.count_singleton, if_neg (by simpa using digit_char_ne_point d)]
  omega

theorem readable_append_point {t : Text} (ht : Typed t) (hr : (P.ofText t).isSome) :
    (P.ofText (t ++ ['.'])).isSome ↔ '.' ∉ t := by
  rw [hP.typed ht] at hr
  rw [hP.typed (t := t ++ ['.']) (typed_append ht (typed_char .point))]
  obtain ⟨⟨c, hc, hcd⟩, _⟩ := hr
  have hcount : (t ++ ['.']).count '.' = t.count '.' + 1 := by
    rw [List.count_append, List.count_singleton_self]
  rw [hcount, ← List.count_eq_zero]
  constructor
  · intro h
    omega
  · intro h
    exact ⟨⟨c, List.mem_append_left _ hc, hcd⟩, by omega⟩

/-! ### One press -/

/- The first point of a number stands alone. -/
theorem press_firstPoint_readable_iff {s : ViewController D}
    (hflag : s.isFinishedTypingNumber = true) :
    Readable P (press P s (.number .point)) ↔ PointGuarded P s (.number .point) := by
  have hno : ¬ PointGuarded P s (.number .point) := fun h => by
    have := (h rfl).1
    rw [hflag] at this
    cases this
  rw [press_first .point hflag]
  refine iff_of_false ?_ hno
  show ¬ (P.ofText ['.']).isSome = true
  rw [unreadable_point hP]
  exact Bool.false_ne_true

/- A later point is appended to a text whose value is whole. -/
theorem press_point_readable_iff {s : ViewController D} (ht : Typed s.displayLabel)
    (hr : (P.ofText s.displayLabel).isSome) (hflag : s.isFinishedTypingNumber = false) :
    Readable P (press P s (.number .point)) ↔ PointGuarded P s (.number .point) := by
  obtain ⟨value, hv⟩ := Option.isSome_iff_exists.mp hr
  have hwhole : wholeOnDisplay P s = P.beq (P.floor value) value := by
    simp only [wholeOnDisplay, hv]
  have hguard : PointGuarded P s (.number .point) ↔
      ('.' ∈ s.displayLabel → P.beq (P.floor value) value = false) := by
    simp only [PointGuarded, hflag, hwhole, true_and, forall_const]
  rw [press_point hflag hv, hguard]
  cases hb : P.beq (P.floor value) value with
  | true =>
    rw [if_pos rfl]
    show (P.ofText (s.displayLabel ++ ['.'])).isSome ↔ _
    rw [readable_append_point hP ht hr]
    simp
  | false =>
    rw [if_neg Bool.false_ne_true]
    exact iff_of_true hr fun _ => rfl

theorem press_readable_iff {s : ViewController D} (hs : TypedWhileTyping s)
    (hr : (P.ofText s.displayLabel).isSome) (k : Key) :
    Readable P (press P s k) ↔ PointGuarded P s k := by
  cases k with
  | operation op =>
    -- an operation key prints with `clean` or traps without a result
    have hguard : PointGuarded P s (.operation op) := fun h => by cases h
    refine iff_of_true ?_ hguard
    cases hp : press P s (.operation op) with
    | ok r =>
      obtain ⟨_, shown, hshown⟩ := press_operation_ok hp
      show (P.ofText r.displayLabel).isSome
      rw [hshown]
      exact hP.clean shown
    | error t => exact press_operation_error hp hr
  | number k =>
    cases hflag : s.isFinishedTypingNumber with
    | true =>
      cases k with
      | digit d =>
        rw [press_first (.digit d) hflag]
        exact iff_of_true (readable_digit hP d) fun h => by cases h
      | point => exact press_firstPoint_readable_iff hP hflag
    | false =>
      cases k with
      | digit d =>
        rw [press_digit d hflag]
        exact iff_of_true (readable_append_digit hP (hs hflag) hr d) fun h => by cases h
      | point => exact press_point_readable_iff hP (hs hflag) hr hflag

omit hP in
theorem press_typed {s r : ViewController D} {k : Key} (hs : TypedWhileTyping s)
    (hr : (P.ofText s.displayLabel).isSome) (h : press P s k = .ok r) : TypedWhileTyping r := by
  intro hflag
  cases k with
  | operation op =>
    have := (press_operation_ok h).1
    rw [hflag] at this
    cases this
  | number k =>
    cases hf : s.isFinishedTypingNumber with
    | true =>
      rw [press_first k hf] at h
      cases h
      exact typed_char k
    | false =>
      have ht := hs hf
      cases k with
      | digit d =>
        rw [press_digit d hf] at h
        cases h
        exact typed_append ht (typed_char _)
      | point =>
        obtain ⟨value, hv⟩ := Option.isSome_iff_exists.mp hr
        rw [press_point hf hv] at h
        split at h <;> cases h
        · exact typed_append ht (typed_char .point)
        · exact ht

end Texts

/-- The exact condition for a readable display: at each press of the point key
a number is being typed, and if it has a point already its value is not whole. -/
theorem display_safe_iff (P : DoublePlatform D) (hP : P.ReadsNumerals) (keys : List Key) :
    DisplaySafe P keys ↔ AtEach (PointGuarded P) (press P) launch keys := by
  have hzero : (P.ofText ['0']).isSome := readable_digit hP 0
  refine accepted_iff_atEach (E := fun _ _ => True) (I := TypedWhileTyping) ?_ hzero ?_ ?_
    (atEach_of_forall (fun _ _ => trivial) _ _)
  · intro h
    cases h
  · intro s k hs hr _
    exact press_readable_iff hP hs hr k
  · intro s k r hs hr _ h _
    exact press_typed hs hr h

theorem display_safe_one_point_five :
    DisplaySafe decimalPlatform
      [.number (.digit 1), .number .point, .number (.digit 5), .number .point] :=
  (display_safe_iff decimalPlatform decimalPlatform_reads _).mpr (by decide +kernel)

/- A point as the first key shows ".", and the next operation key traps. -/
theorem point_first_unreadable :
    decimalPlatform.ReadsNumerals ∧ ¬ DisplaySafe decimalPlatform [.number .point] ∧
      exec (press decimalPlatform) launch [.number .point, .operation .ac] =
        .error .displayLabelText := by
  refine ⟨decimalPlatform_reads, ?_, by rfl⟩
  intro h
  have hdot : (decimalPlatform.ofText ['.']).isSome = true :=
    h [.number .point] (List.prefix_refl _)
  exact absurd hdot (by decide)

end PracticeApps.CalculatorApp
