import PracticeApps.ColorThief.MedianCut
import Mathlib.Data.Prod.Lex

/-!
# The queue of boxes

Rounds of `iterate` cut the last box of a sorted queue. Whatever cuts and
reorderings keep holds of the boxes a whole iteration ends with, and the
iteration never traps.
-/

namespace PracticeApps.ColorThief.MMCQ
open ComparatorSort Cuts

variable {sorter : Sorter VBox} {histogram : Histogram} {comparator : VBox → VBox → Bool}
variable {target color : ℤ} {queue init : List VBox} {vbox : VBox}

/-! ### One round -/

theorem iterate_empty (n : ℕ) (hlast : queue.getLast? = some vbox)
    (hcount : vbox.getCount histogram = 0) :
    iterate sorter histogram comparator target (n + 1) color queue =
      iterate sorter histogram comparator target n color (sorter.sort comparator queue) := by
  rw [iterate, hlast]
  dsimp only
  rw [if_pos hcount]

/- A box with one pixel stays. -/
theorem iterate_single (n : ℕ) (hcount : vbox.getCount histogram = 1) :
    iterate sorter histogram comparator target (n + 1) color (init ++ [vbox]) =
      if target ≤ color then .ok (sorter.sort comparator (init ++ [vbox]))
      else iterate sorter histogram comparator target n color
        (sorter.sort comparator (init ++ [vbox])) := by
  have happly : applyMedianCut histogram vbox = .ok [vbox] := by
    unfold applyMedianCut
    rw [if_neg (by omega), if_pos hcount]
  rw [iterate, List.getLast?_concat]
  dsimp only
  rw [if_neg (by omega), happly, List.dropLast_concat]

theorem iterate_cut (sorter : Sorter VBox) (comparator : VBox → VBox → Bool) (target color : ℤ)
    (init : List VBox) (n : ℕ) (hcount : 2 ≤ vbox.getCount histogram) :
    ∃ axis d lower upper, CutInto histogram vbox axis d lower upper ∧
      iterate sorter histogram comparator target (n + 1) color (init ++ [vbox]) =
        if target ≤ color + 1 then .ok (sorter.sort comparator (init ++ [lower] ++ [upper]))
        else iterate sorter histogram comparator target n (color + 1)
          (sorter.sort comparator (init ++ [lower] ++ [upper])) := by
  obtain ⟨axis, d, lower, upper, happly, -, hcut⟩ := applyMedianCut_ok hcount
  refine ⟨axis, d, lower, upper, hcut, ?_⟩
  rw [iterate, List.getLast?_concat]
  dsimp only
  rw [if_neg (by omega), happly, List.dropLast_concat]

/-! ### All rounds -/

/-- What reorderings and cuts of a box keep, an iteration keeps; `I` may count the cuts.
It ends, without a trap, with at most the cuts that were still wanted, or with one. -/
theorem iterate_invariant (sorter : Sorter VBox) (histogram : Histogram)
    (comparator : VBox → VBox → Bool) (target : ℤ) {I : ℤ → List VBox → Prop}
    (hperm : ∀ color queue queue', queue'.Perm queue → I color queue → I color queue')
    (hcut : ∀ color init vbox axis d lower upper, CutInto histogram vbox axis d lower upper →
      I color (vbox :: init) → I (color + 1) (lower :: upper :: init))
    (n : ℕ) (hne : queue ≠ []) (hI : I color queue) :
    ∃ result color', iterate sorter histogram comparator target n color queue = .ok result ∧
      result ≠ [] ∧ I color' result ∧ color' ≤ max (color + 1) target := by
  induction n generalizing color queue with
  | zero => exact ⟨queue, color, rfl, hne, hI, by omega⟩
  | succ n ih =>
    obtain ⟨init, vbox, rfl⟩ : ∃ init vbox, queue = init ++ [vbox] :=
      ⟨_, _, (List.dropLast_append_getLast hne).symm⟩
    have hsorted : I color (sorter.sort comparator (init ++ [vbox])) :=
      hperm _ _ _ (sorter.perm _ _) hI
    have hsome := sorter.sort_ne_nil comparator hne
    rcases Nat.lt_trichotomy (vbox.getCount histogram) 1 with hzero | hone | hmany
    · rw [iterate_empty n List.getLast?_concat (by omega)]
      exact ih hsome hsorted
    · rw [iterate_single n hone]
      split
      · exact ⟨_, color, rfl, hsome, hsorted, by omega⟩
      · exact ih hsome hsorted
    · obtain ⟨axis, d, lower, upper, hinto, hround⟩ :=
        iterate_cut sorter comparator target color init n hmany
      have hfront : I color (vbox :: init) :=
        hperm _ _ _ (List.perm_append_singleton vbox init).symm hI
      have hmoved : (init ++ [lower] ++ [upper]).Perm (lower :: upper :: init) := by
        rw [List.append_assoc]
        exact List.perm_append_comm
      have hnext : I (color + 1) (sorter.sort comparator (init ++ [lower] ++ [upper])) :=
        hperm _ _ _ ((sorter.perm _ _).trans hmoved) (hcut _ _ _ _ _ _ _ hinto hfront)
      have hsome' := sorter.sort_ne_nil comparator
        (List.append_ne_nil_of_right_ne_nil (init ++ [lower]) (List.cons_ne_nil upper []))
      rw [hround]
      split
      · exact ⟨_, color + 1, rfl, hsome', hnext, by omega⟩
      · obtain ⟨result, color', hresult, hne', hI', hle⟩ := ih hsome' hnext
        exact ⟨result, color', hresult, hne', hI', by omega⟩

/-- Boxes with one pixel or none stay as they are. -/
theorem iterate_settled {result : List VBox} (n : ℕ)
    (hcount : ∀ b ∈ queue, b.getCount histogram ≤ 1)
    (hresult : iterate sorter histogram comparator target n color queue = .ok result) :
    result.Perm queue := by
  induction n generalizing queue with
  | zero =>
    rw [iterate] at hresult
    cases hresult
    exact List.Perm.refl _
  | succ n ih =>
    have hsort := sorter.perm comparator queue
    have hcount' : ∀ b ∈ sorter.sort comparator queue, b.getCount histogram ≤ 1 :=
      fun b hb => hcount b (hsort.mem_iff.mp hb)
    rcases List.eq_nil_or_concat' queue with rfl | ⟨init, vbox, rfl⟩
    · rw [iterate] at hresult
      cases hresult
      exact List.Perm.refl _
    · have hlast := hcount vbox (List.mem_append_right init (List.mem_singleton.mpr rfl))
      rcases Nat.le_one_iff_eq_zero_or_eq_one.mp hlast with hzero | hone
      · rw [iterate_empty n List.getLast?_concat hzero] at hresult
        exact (ih hcount' hresult).trans hsort
      · rw [iterate_single n hone] at hresult
        split at hresult
        · cases hresult
          exact hsort
        · exact (ih hcount' hresult).trans hsort

/-- A sorted queue stays sorted. -/
theorem iterate_sorted {result : List VBox} (hlt : StrictWeak comparator) (n : ℕ)
    (hsorted : queue.Pairwise fun a b => comparator b a = false)
    (hresult : iterate sorter histogram comparator target n color queue = .ok result) :
    result.Pairwise fun a b => comparator b a = false := by
  induction n generalizing color queue with
  | zero =>
    rw [iterate] at hresult
    cases hresult
    exact hsorted
  | succ n ih =>
    rcases List.eq_nil_or_concat' queue with rfl | ⟨init, vbox, rfl⟩
    · rw [iterate] at hresult
      cases hresult
      exact List.Pairwise.nil
    · rcases Nat.lt_trichotomy (vbox.getCount histogram) 1 with hzero | hone | hmany
      · rw [iterate_empty n List.getLast?_concat (by omega)] at hresult
        exact ih (sorter.sorted _ _ hlt) hresult
      · rw [iterate_single n hone] at hresult
        split at hresult
        · cases hresult
          exact sorter.sorted _ _ hlt
        · exact ih (sorter.sorted _ _ hlt) hresult
      · obtain ⟨axis, d, lower, upper, hinto, hround⟩ :=
          iterate_cut sorter comparator target color init n hmany
        rw [hround] at hresult
        split at hresult
        · cases hresult
          exact sorter.sorted _ _ hlt
        · exact ih (sorter.sorted _ _ hlt) hresult

/-! ### The comparators -/

theorem compareByCount_strictWeak : StrictWeak (compareByCount histogram) :=
  strictWeak_of_key (fun b => b.getCount histogram) fun a b => by
    rw [compareByCount, decide_eq_true_iff]

/- The population of a box times its size in the colour space. -/
def score (histogram : Histogram) (vbox : VBox) : ℤ := vbox.getCount histogram * vbox.getVolume

theorem score_pos_iff (histogram : Histogram) (vbox : VBox) :
    0 < score histogram vbox ↔ vbox.getCount histogram ≠ 0 := by
  unfold score
  constructor
  · intro h hzero
    rw [hzero] at h
    simp at h
  · intro hcount
    have hvolume := getVolume_pos hcount
    have : (0 : ℤ) < vbox.getCount histogram := by omega
    positivity

/- By score first, and the empty boxes among themselves by volume. -/
def productKey (histogram : Histogram) (vbox : VBox) : ℤ ×ₗ ℤ :=
  toLex (score histogram vbox, if vbox.getCount histogram = 0 then vbox.getVolume else 0)

theorem compareByProduct_iff (a b : VBox) :
    compareByProduct histogram a b = true ↔
      productKey histogram a < productKey histogram b := by
  have ha := score_pos_iff histogram a
  have hb := score_pos_iff histogram b
  have hempty : ∀ c : VBox, c.getCount histogram = 0 → score histogram c = 0 := by
    intro c hc
    rw [score, hc, Nat.cast_zero, zero_mul]
  unfold compareByProduct productKey
  dsimp only
  rw [Prod.Lex.toLex_lt_toLex]
  by_cases heq : a.getCount histogram = b.getCount histogram
  · rw [if_pos heq, decide_eq_true_iff]
    by_cases hzero : a.getCount histogram = 0
    · rw [hempty a hzero, hempty b (by omega), if_pos hzero, if_pos (by omega)]
      omega
    · have hpos : (0 : ℤ) < b.getCount histogram := by omega
      rw [if_neg hzero, if_neg (by omega)]
      unfold score
      rw [heq, Int.mul_lt_mul_left hpos]
      omega
  · rw [if_neg heq, decide_eq_true_iff]
    show score histogram a < score histogram b ↔ _
    by_cases hzero : a.getCount histogram = 0
    · rw [hempty a hzero] at ha ⊢
      omega
    · by_cases hzero' : b.getCount histogram = 0
      · rw [hempty b hzero'] at hb ⊢
        omega
      · rw [if_neg hzero, if_neg hzero']
        omega

theorem compareByProduct_strictWeak : StrictWeak (compareByProduct histogram) :=
  strictWeak_of_key (productKey histogram) compareByProduct_iff

/-- The rounds by population end with as many boxes as wanted, unless no box has two pixels. -/
theorem iterate_reaches {result : List VBox} (n : ℕ) (hfuel : target ≤ color + n)
    (hsorted : queue.Pairwise fun a b => compareByCount histogram b a = false)
    (hne : queue ≠ [])
    (hresult : iterate sorter histogram (compareByCount histogram) target n color queue =
      .ok result) :
    target ≤ color + result.length - queue.length ∨
      ∀ b ∈ result, b.getCount histogram ≤ 1 := by
  induction n generalizing color queue with
  | zero =>
    rw [iterate] at hresult
    cases hresult
    left
    omega
  | succ n ih =>
    obtain ⟨init, vbox, rfl⟩ : ∃ init vbox, queue = init ++ [vbox] :=
      ⟨_, _, (List.dropLast_append_getLast hne).symm⟩
    by_cases hfew : vbox.getCount histogram ≤ 1
    · right
      have hall : ∀ b ∈ init ++ [vbox], b.getCount histogram ≤ 1 := by
        intro b hb
        rcases List.mem_append.mp hb with hb | hb
        · have hle := (List.pairwise_append.mp hsorted).2.2 b hb vbox (List.mem_singleton.mpr rfl)
          rw [compareByCount, decide_eq_false_iff_not] at hle
          omega
        · rw [List.mem_singleton.mp hb]
          exact hfew
      intro b hb
      exact hall b ((iterate_settled (n + 1) hall hresult).mem_iff.mp hb)
    · obtain ⟨axis, d, lower, upper, hinto, hround⟩ :=
        iterate_cut sorter (compareByCount histogram) target color init n (not_le.mp hfew)
      rw [hround] at hresult
      have hlength : (sorter.sort (compareByCount histogram)
          (init ++ [lower] ++ [upper])).length = (init ++ [vbox]).length + 1 := by
        rw [sorter.length_sort]
        simp only [List.length_append, List.length_singleton]
      split at hresult
      · cases hresult
        left
        omega
      · have hsome := sorter.sort_ne_nil (compareByCount histogram)
          (List.append_ne_nil_of_right_ne_nil (init ++ [lower]) (List.cons_ne_nil upper []))
        have hrest := ih (by omega) (sorter.sorted _ _ compareByCount_strictWeak) hsome hresult
        rw [hlength] at hrest
        rcases hrest with hreached | hsingle
        · left
          omega
        · exact Or.inr hsingle

end PracticeApps.ColorThief.MMCQ
