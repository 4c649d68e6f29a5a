import PracticeApps.Firestore.LlrbNode
import Mathlib.Data.Nat.Log

/-!
# The balance of the tree

No red node is a right child or has a red child, every path down meets the same number of
black nodes, and every node keeps the size that its children give, which is right as long as it
fits 31 bits. An insertion may leave two red nodes in a row
at the top of a subtree, and a removal goes only into subtrees that can lose a node.
-/

namespace PracticeApps.Firestore
namespace LlrbNode
variable {κ ν : Type}

/-- A balanced tree, the colour of its root and the number of black nodes on each path. -/
inductive Balanced : LlrbNode κ ν → Color → ℕ → Prop where
  | empty : Balanced .empty .Black 0
  | red {e : κ × ν} {s n : ℕ} {l r : LlrbNode κ ν} (hsize : s = sizeAbove l r)
    (hl : Balanced l .Black n) (hr : Balanced r .Black n) : Balanced (.node e .Red s l r) .Red n
  | black {e : κ × ν} {s n : ℕ} {c : Color} {l r : LlrbNode κ ν} (hsize : s = sizeAbove l r)
    (hl : Balanced l c n) (hr : Balanced r .Black n) :
    Balanced (.node e .Black s l r) .Black (n + 1)

variable {c cl cr : Color} {n : ℕ} {t l r : LlrbNode κ ν}

@[simp] theorem Balanced.red_eq (h : Balanced t c n) : t.red = decide (c = .Red) := by
  cases h <;> rfl

theorem Balanced.left_black (h : Balanced t .Red n) : t.left.red = false := by
  cases h with
  | red hsize hl hr => exact hl.red_eq

theorem Balanced.eq_empty (h : Balanced t .Black 0) : t = .empty := by
  cases h
  rfl

theorem Balanced.size_mod (h : Balanced t c n) : t.size = t.toList.length % 2 ^ 31 := by
  induction h with
  | empty => rfl
  | red hsize hl hr ihl ihr | black hsize hl hr ihl ihr =>
    unfold sizeAbove at hsize
    simp only [size, toList_node, List.length_append, List.length_cons]
    omega

/-- Every node knows how many entries it stands for. -/
def Sized : LlrbNode κ ν → Prop
  | .empty => True
  | .node _ _ size left right =>
    size = left.toList.length + 1 + right.toList.length ∧ left.Sized ∧ right.Sized

theorem Sized.size_eq (h : t.Sized) : t.size = t.toList.length := by
  cases t with
  | empty => rfl
  | node e c s l r =>
    rw [size_node, h.1, toList_node, List.length_append, List.length_cons]
    omega

theorem Sized.ne_zero {e : κ × ν} {s : ℕ} (h : (node e c s l r).Sized) : s ≠ 0 := by
  rw [h.1]
  omega

theorem Sized.isEmpty_iff (h : t.Sized) : t.isEmpty = true ↔ t = .empty := by
  cases t with
  | empty => simp
  | node e c s l r => simp [h.ne_zero]

/-- The sizes are right, if they fit. -/
theorem Balanced.sized (h : Balanced t c n) (hfew : t.toList.length < 2 ^ 31) : t.Sized := by
  induction h with
  | empty => trivial
  | red hsize hl hr ihl ihr | black hsize hl hr ihl ihr =>
    simp only [toList_node, List.length_append, List.length_cons] at hfew
    have hleft := hl.size_mod
    have hright := hr.size_mod
    refine ⟨?_, ihl (by omega), ihr (by omega)⟩
    unfold sizeAbove at hsize
    omega

/- The black root of a tree that is not empty. -/
theorem Balanced.cases_black (h : Balanced t .Black (n + 1)) :
    ∃ e s l r c, t = .node e .Black s l r ∧ s = sizeAbove l r ∧ Balanced l c n ∧
      Balanced r .Black n := by
  cases h with
  | black hsize hl hr => exact ⟨_, _, _, _, _, rfl, hsize, hl, hr⟩

theorem Balanced.cases_red (h : Balanced t .Red n) :
    ∃ e s l r, t = .node e .Red s l r ∧ s = sizeAbove l r ∧ Balanced l .Black n ∧
      Balanced r .Black n := by
  cases h with
  | red hsize hl hr => exact ⟨_, _, _, _, rfl, hsize, hl, hr⟩

def height : LlrbNode κ ν → ℕ
  | .empty => 0
  | .node _ _ _ left right => Max.max left.height right.height + 1

theorem Balanced.height_le (h : Balanced t c n) :
    t.height ≤ 2 * n + if c = .Red then 1 else 0 := by
  induction h with
  | empty => rfl
  | red hsize hl hr ihl ihr =>
    simp only [reduceCtorEq, if_false, if_true] at ihl ihr ⊢
    simp only [height]
    omega
  | @black e s n c l r hsize hl hr ihl ihr =>
    have hl' : l.height ≤ 2 * n + 1 := by
      split at ihl <;> omega
    have hr' : r.height ≤ 2 * n + 1 := by
      simp only [reduceCtorEq, if_false] at ihr
      omega
    simp only [height, reduceCtorEq, if_false]
    omega

theorem Balanced.two_pow_le (h : Balanced t c n) : 2 ^ n ≤ t.toList.length + 1 := by
  induction h with
  | empty => rfl
  | red hsize hl hr ihl ihr =>
    simp only [toList_node, List.length_append, List.length_cons]
    omega
  | black hsize hl hr ihl ihr =>
    simp only [toList_node, List.length_append, List.length_cons, Nat.pow_succ]
    omega

/-- No path is longer than twice the logarithm of the size. -/
theorem Balanced.height_le_log (h : Balanced t .Black n) :
    t.height ≤ 2 * Nat.log 2 (t.toList.length + 1) := by
  have hheight := h.height_le
  have hlog := Nat.le_log_of_pow_le (by decide : 1 < 2) h.two_pow_le
  simp only [reduceCtorEq, if_false] at hheight
  omega

/-! ### Fixing a node up -/

theorem fixUp_keep (e : κ × ν) (c : Color) (hl : Balanced l cl n) (hr : Balanced r .Black n) :
    fixUp e c l r = some (.node e c (sizeAbove l r) l r) := by
  have hright : r.red = false := by simpa using hr.red_eq
  have hleft : ¬(l.red = true ∧ l.left.red = true) := by
    cases cl with
    | Black => simp [hl.red_eq]
    | Red => simp [hl.left_black]
  unfold fixUp
  simp [hright, hleft]

/- Two red children. -/
theorem fixUp_both (e : κ × ν) (hl : Balanced l .Red n) (hr : Balanced r .Red n) :
    ∃ t, fixUp e .Black l r = some t ∧ Balanced t .Red (n + 1) := by
  obtain ⟨le, ls, ll, lr, rfl, hlsize, hll, hlr⟩ := hl.cases_red
  obtain ⟨re, rs, rl, rr, rfl, hrsize, hrl, hrr⟩ := hr.cases_red
  have hleft := hll.red_eq
  simp only [reduceCtorEq, decide_false] at hleft
  refine ⟨.node e .Red _ (.node le .Black ls ll lr) (.node re .Black rs rl rr), ?_,
    .red rfl (.black hlsize hll hlr) (.black hrsize hrl hrr)⟩
  simp [fixUp, hleft, flipColor, Color.opposite, sizeAbove]

/- A red node only on the right. -/
theorem fixUp_right (e : κ × ν) (c : Color) (hl : Balanced l .Black n) (hr : Balanced r .Red n) :
    ∃ re s rl rr,
      fixUp e c l r =
        some (.node re c (sizeAbove (.node e .Red s l rl) rr) (.node e .Red s l rl) rr) ∧
      Balanced (.node e .Red s l rl) .Red n ∧ Balanced rr .Black n := by
  obtain ⟨re, rs, rl, rr, rfl, hrsize, hrl, hrr⟩ := hr.cases_red
  have hleft := hl.red_eq
  have hright := hrr.red_eq
  simp only [reduceCtorEq, decide_false] at hleft hright
  refine ⟨re, sizeAbove l rl, rl, rr, ?_, .red rfl hl hrl, hrr⟩
  have hsize : sizeAbove l (.node re .Red rs rl rr) =
      sizeAbove (.node e .Red (sizeAbove l rl) l rl) rr := by
    unfold sizeAbove at hrsize ⊢
    simp only [size_node]
    omega
  simp [fixUp, hleft, hright, rotateLeft, hsize]

theorem fixUp_black (e : κ × ν) (hl : Balanced l cl n) (hr : Balanced r cr n) :
    ∃ t c, fixUp e .Black l r = some t ∧ Balanced t c (n + 1) ∧
      (cl = .Black ∨ cr = .Black → c = .Black) := by
  cases cr with
  | Black => exact ⟨_, _, fixUp_keep e .Black hl hr, .black rfl hl hr, fun _ => rfl⟩
  | Red =>
    cases cl with
    | Black =>
      obtain ⟨re, s, rl, rr, hfix, hleft, hright⟩ := fixUp_right e .Black hl hr
      exact ⟨_, _, hfix, .black rfl hleft hright, fun _ => rfl⟩
    | Red =>
      obtain ⟨t, hfix, ht⟩ := fixUp_both e hl hr
      exact ⟨t, _, hfix, ht, by simp⟩

/-! ### Insertion -/

/-- Two red nodes in a row at the top. -/
def RedRed (t : LlrbNode κ ν) (n : ℕ) : Prop :=
  ∃ e s l r, t = .node e .Red s l r ∧ s = sizeAbove l r ∧ Balanced l .Red n ∧
    Balanced r .Black n

theorem fixUp_redRed (e : κ × ν) (hl : RedRed l n) (hr : Balanced r .Black n) :
    ∃ t, fixUp e .Black l r = some t ∧ Balanced t .Red (n + 1) := by
  obtain ⟨le, ls, ll, lr, rfl, hlsize, hll, hlr⟩ := hl
  obtain ⟨lle, lls, lll, llr, rfl, hllsize, hlll, hllr⟩ := hll.cases_red
  have hright := hr.red_eq
  simp only [reduceCtorEq, decide_false] at hright
  refine ⟨.node le .Red _ (.node lle .Black lls lll llr)
    (.node e .Black (sizeAbove lr r) lr r), ?_,
    .red rfl (.black hllsize hlll hllr) (.black rfl hlr hr)⟩
  have hsize : sizeAbove (.node le .Red ls (.node lle .Red lls lll llr) lr) r =
      sizeAbove (.node lle .Black lls lll llr) (.node e .Black (sizeAbove lr r) lr r) := by
    unfold sizeAbove at hlsize ⊢
    simp only [size_node] at hlsize ⊢
    omega
  simp [fixUp, hright, rotateRight, flipColor, Color.opposite, hsize]

theorem Balanced.fixRootColor (h : Balanced t c n) : ∃ n', Balanced t.fixRootColor .Black n' := by
  cases h with
  | empty => exact ⟨_, .empty⟩
  | red hsize hl hr => exact ⟨_, .black hsize hl hr⟩
  | black hsize hl hr => exact ⟨_, .black hsize hl hr⟩

theorem RedRed.fixRootColor (h : RedRed t n) : ∃ n', Balanced t.fixRootColor .Black n' := by
  obtain ⟨e, s, l, r, rfl, hsize, hl, hr⟩ := h
  exact ⟨_, .black hsize hl hr⟩

theorem toList_fixRootColor (t : LlrbNode κ ν) : t.fixRootColor.toList = t.toList := by
  cases t <;> rfl

variable [LinearOrder κ]

theorem innerInsert_balanced (key : κ) (value : ν) (h : Balanced t c n) (hsized : t.Sized) :
    ∃ t', innerInsert key value t = some t' ∧
      ((∃ c', Balanced t' c' n) ∨ (c = .Red ∧ RedRed t' n)) := by
  induction h with
  | empty => exact ⟨_, rfl, .inl ⟨.Red, .red rfl .empty .empty⟩⟩
  | @red e s n l r hsize hl hr ihl ihr =>
    unfold innerInsert
    rw [if_neg hsized.ne_zero]
    cases compare e.1 key with
    | eq => exact ⟨_, rfl, .inl ⟨_, .red hsize hl hr⟩⟩
    | gt =>
      obtain ⟨l', hinsert, ⟨c', hl'⟩ | ⟨hfalse, -⟩⟩ := ihl hsized.2.1
      · rw [hinsert]
        refine ⟨_, fixUp_keep e .Red hl' hr, ?_⟩
        cases c' with
        | Black => exact .inl ⟨_, .red rfl hl' hr⟩
        | Red => exact .inr ⟨rfl, e, _, l', r, rfl, rfl, hl', hr⟩
      · cases hfalse
    | lt =>
      obtain ⟨r', hinsert, ⟨c', hr'⟩ | ⟨hfalse, -⟩⟩ := ihr hsized.2.2
      · rw [hinsert]
        cases c' with
        | Black => exact ⟨_, fixUp_keep e .Red hl hr', .inl ⟨_, .red rfl hl hr'⟩⟩
        | Red =>
          obtain ⟨re, s', rl, rr, hfix, hleft, hright⟩ := fixUp_right e .Red hl hr'
          exact ⟨_, hfix, .inr ⟨rfl, re, _, _, rr, rfl, rfl, hleft, hright⟩⟩
      · cases hfalse
  | @black e s n c l r hsize hl hr ihl ihr =>
    unfold innerInsert
    rw [if_neg hsized.ne_zero]
    cases compare e.1 key with
    | eq => exact ⟨_, rfl, .inl ⟨_, .black hsize hl hr⟩⟩
    | gt =>
      obtain ⟨l', hinsert, hl'⟩ := ihl hsized.2.1
      rw [hinsert]
      rcases hl' with ⟨c', hl'⟩ | ⟨-, hl'⟩
      · obtain ⟨t, c'', hfix, ht, -⟩ := fixUp_black e hl' hr
        exact ⟨t, hfix, .inl ⟨c'', ht⟩⟩
      · obtain ⟨t, hfix, ht⟩ := fixUp_redRed e hl' hr
        exact ⟨t, hfix, .inl ⟨_, ht⟩⟩
    | lt =>
      obtain ⟨r', hinsert, ⟨c', hr'⟩ | ⟨hfalse, -⟩⟩ := ihr hsized.2.2
      · rw [hinsert]
        obtain ⟨t, c'', hfix, ht, -⟩ := fixUp_black e hl hr'
        exact ⟨t, hfix, .inl ⟨c'', ht⟩⟩
      · cases hfalse

/- The list with the new entry, as in an insertion into a sorted map. -/
theorem toList_innerInsert {key : κ} {value : ν} {t t' : LlrbNode κ ν}
    (h : innerInsert key value t = some t') (hsized : t.Sized)
    (hsorted : t.toList.Pairwise fun a b => a.1 < b.1) :
    t'.toList = (t.toList.filter fun a => decide (a.1 < key)) ++
      (key, value) :: t.toList.filter fun a => decide (key < a.1) := by
  induction t generalizing t' with
  | empty =>
    cases h
    rfl
  | node e c s l r ihl ihr =>
    obtain ⟨hleft, hright, -⟩ := List.pairwise_append.mp hsorted
    rw [toList_node]
    rw [innerInsert, if_neg hsized.ne_zero] at h
    rcases lt_trichotomy e.1 key with hlow | heq | hhigh
    · simp only [compare_lt_iff_lt.mpr hlow] at h
      obtain ⟨r', hr', hfix⟩ := Option.bind_eq_some_iff.mp h
      rw [toList_fixUp hfix, ihr hr' hsized.2.2 (List.pairwise_cons.mp hright).2,
        SortedMap.filter_lt_of_lt hsorted hlow, SortedMap.filter_gt_of_le hsorted hlow.le]
      simp
    · subst heq
      simp only [compare_eq_iff_eq.mpr rfl] at h
      cases h
      rw [SortedMap.filter_lt_self hsorted, SortedMap.filter_gt_self hsorted, toList_node]
    · simp only [compare_gt_iff_gt.mpr hhigh] at h
      obtain ⟨l', hl', hfix⟩ := Option.bind_eq_some_iff.mp h
      rw [toList_fixUp hfix, ihl hl' hsized.2.1 hleft, SortedMap.filter_lt_of_le hsorted hhigh.le,
        SortedMap.filter_gt_of_lt hsorted hhigh]
      simp

theorem insert_spec (key : κ) (value : ν) (h : Balanced t .Black n) (hsized : t.Sized)
    (hsorted : t.toList.Pairwise fun a b => a.1 < b.1) :
    ∃ t' n', t.insert key value = some t' ∧ Balanced t' .Black n' ∧
      t'.toList = (t.toList.filter fun a => decide (a.1 < key)) ++
        (key, value) :: t.toList.filter fun a => decide (key < a.1) := by
  obtain ⟨t', hinsert, ⟨c', ht⟩ | ⟨hfalse, -⟩⟩ := innerInsert_balanced key value h hsized
  · obtain ⟨n', hroot⟩ := ht.fixRootColor
    refine ⟨t'.fixRootColor, n', ?_, hroot, ?_⟩
    · unfold insert
      rw [hinsert, Option.map_some]
    · rw [toList_fixRootColor, toList_innerInsert hinsert hsized hsorted]
  · cases hfalse

end LlrbNode
end PracticeApps.Firestore
