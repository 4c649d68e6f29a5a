import PracticeApps.Firestore.LlrbBalance

/-!
# Removing from the tree

A removal goes down through subtrees that can lose a node: the root is red, or its left child is.
`MoveRedRight` may leave one with a red right child instead, which the removal enters on its right.
-/

namespace PracticeApps.Firestore
namespace LlrbNode
variable {κ ν : Type} {c cl cr : Color} {n : ℕ} {e : κ × ν} {s : ℕ} {t l r : LlrbNode κ ν}

/-- A subtree a removal may enter. -/
structure Ready (t : LlrbNode κ ν) (c : Color) (n : ℕ) : Prop where
  balanced : Balanced t c n
  lean : c = .Black → t = .empty ∨ t.left.red = true

/-- What it leaves. A black root stays black. -/
def Removed (c : Color) (t : LlrbNode κ ν) (n : ℕ) : Prop :=
  ∃ c', Balanced t c' n ∧ (c = .Black → c' = .Black)

theorem removed_red (h : Balanced t c n) : Removed .Red t n := ⟨c, h, by simp⟩

theorem ready_red (h : Balanced t .Red n) : Ready t .Red n := ⟨h, by simp⟩

theorem ready_empty : Ready (empty : LlrbNode κ ν) .Black 0 := ⟨.empty, fun _ => .inl rfl⟩

theorem Removed.black (h : Removed .Black t n) : Balanced t .Black n := by
  obtain ⟨c, ht, hc⟩ := h
  rw [hc rfl] at ht
  exact ht

/- A node is fixed up to what is left of its tree. -/
def FixesTo (c : Color) (n : ℕ) (fixed : Option (LlrbNode κ ν)) : Prop :=
  ∃ t, fixed = some t ∧ Removed c t n

theorem fixesTo_red {fixed : Option (LlrbNode κ ν)} (h : fixed = some t) (ht : Balanced t c n) :
    FixesTo .Red n fixed := ⟨t, h, removed_red ht⟩

theorem fixesTo_keep (e : κ × ν) (hl : Balanced l .Black n) (hr : Balanced r .Black n) :
    FixesTo .Red n (fixUp e .Red l r) := fixesTo_red (fixUp_keep e .Red hl hr) (.red rfl hl hr)

theorem fixesTo_black (e : κ × ν) (hl : Balanced l cl n) (hr : Balanced r cr n)
    (hc : c = .Black → cl = .Black ∨ cr = .Black) : FixesTo c (n + 1) (fixUp e .Black l r) := by
  obtain ⟨t, c', hfix, ht, hblack⟩ := fixUp_black e hl hr
  exact ⟨t, hfix, c', ht, fun h => hblack (hc h)⟩

/-! ### To the left -/

theorem readyLeft_spec (h : Ready (.node e c s l r) c n) (hsized : l.Sized) :
    ∃ e' c' s' l' r' cl m, (node e c s l r).readyLeft = some (.node e' c' s' l' r') ∧
      Ready l' cl m ∧ (l' = .empty → l = .empty) ∧ (e' = e ∨ e' ∈ r.toList) ∧
      ∀ l'', Removed cl l'' m → FixesTo c n (fixUp e' c' l'' r') := by
  obtain ⟨hbalanced, hlean⟩ := h
  cases hbalanced with
  | @black _ _ n cl _ _ hsize hl hr =>
    have hred : l.red = true := by simpa using hlean rfl
    have hcl : cl = .Red := by simpa [hl.red_eq] using hred
    subst hcl
    refine ⟨e, .Black, s, l, r, .Red, n, by simp [readyLeft, hred], ready_red hl, id,
      .inl rfl, ?_⟩
    rintro l'' ⟨c', hl'', -⟩
    exact fixesTo_black e hl'' hr fun _ => .inr rfl
  | red hsize hl hr =>
    cases hl with
    | empty =>
      refine ⟨e, .Red, s, .empty, r, .Black, 0, rfl, ready_empty, id, .inl rfl, ?_⟩
      exact fun l'' hl'' => fixesTo_keep e hl''.black hr
    | @black le ls n cll ll lr hlsize hll hlr =>
      cases cll with
      | Red =>
        have hred : ll.red = true := by simp [hll.red_eq]
        refine ⟨e, .Red, s, _, r, .Black, n + 1, ?_, ⟨.black hlsize hll hlr, fun _ => .inr hred⟩,
          id, .inl rfl, fun l'' hl'' => fixesTo_keep e hl''.black hr⟩
        simp [readyLeft, hred]
      | Black =>
        have hnot : ll.red = false := by simp [hll.red_eq]
        have hne := hsized.ne_zero
        obtain ⟨re, rs, rl, rr, crl, rfl, hrsize, hrl, hrr⟩ := hr.cases_black
        have hflip : Balanced (.node le .Red ls ll lr) .Red n := .red hlsize hll hlr
        cases crl with
        | Black =>
          have hrlnot : rl.red = false := by simp [hrl.red_eq]
          refine ⟨e, .Black, s, .node le .Red ls ll lr, .node re .Red rs rl rr, .Red, n, ?_,
            ready_red hflip, by simp, .inl rfl, ?_⟩
          · simp [readyLeft, moveRedLeft, flipColor, Color.opposite, hnot, hrlnot, hne]
          · rintro l'' ⟨c', hl'', -⟩
            exact fixesTo_black e hl'' (.red hrsize hrl hrr) (by simp)
        | Red =>
          obtain ⟨rle, rls, rll, rlr, rfl, hrlsize, hrll, hrlr⟩ := hrl.cases_red
          refine ⟨rle, .Red, s,
            .node e .Black (sizeAbove (.node le .Red ls ll lr) rll) (.node le .Red ls ll lr) rll,
            .node re .Black (sizeAbove rlr rr) rlr rr, .Black, n + 1, ?_,
            ⟨.black rfl hflip hrll, fun _ => .inr rfl⟩, by simp, .inr (by simp), ?_⟩
          · simp [readyLeft, moveRedLeft, flipColor, Color.opposite, rotateLeft, rotateRight, hnot,
              hne]
          · exact fun l'' hl'' => fixesTo_keep rle hl''.black (.black rfl hrlr hrr)

/-! ### To the right -/

/- A node after `MoveRedRight` has rotated it to the right. -/
def Turned (e : κ × ν) (t : LlrbNode κ ν) (n : ℕ) : Prop :=
  ∃ s l r m, t = .node e .Black s l r ∧ s = sizeAbove l r ∧ Balanced l .Black m ∧
    Balanced r .Red m ∧ n = m + 1

theorem Turned.ne_zero (h : Turned e (.node e c s l r) n)
    (hfew : (node e c s l r).toList.length < 2 ^ 31) : s ≠ 0 := by
  obtain ⟨s, l, r, m, heq, hsize, hl, hr, -⟩ := h
  cases heq
  have hleft := hl.size_mod
  have hright := hr.size_mod
  simp only [toList_node, List.length_append, List.length_cons] at hfew
  unfold sizeAbove at hsize
  omega

theorem readyRight_turned (h : Turned e t n) :
    ∃ s l r m, t.readyRight = some (.node e .Black s l r) ∧ t = .node e .Black s l r ∧
      Ready r .Red m ∧ r ≠ .empty ∧
      ∀ e' r', Removed .Red r' m → FixesTo .Black n (fixUp e' .Black l r') := by
  obtain ⟨s, l, r, m, rfl, -, hl, hr, rfl⟩ := h
  have hleft : l.red = false := by simp [hl.red_eq]
  have hright : r.red = true := by simp [hr.red_eq]
  refine ⟨s, l, r, m, by simp [readyRight, hleft, hright], rfl, ready_red hr, ?_, ?_⟩
  · rintro rfl
    cases hr
  · rintro e' r' ⟨c', hr', -⟩
    exact fixesTo_black e' hl hr' fun _ => .inl rfl

theorem readyRight_spec (h : Ready (.node e c s l r) c n) (hsized : r.Sized) :
    ∃ e' c' s' l' r' cr m, (node e c s l r).readyRight = some (.node e' c' s' l' r') ∧
      (Ready r' cr m ∧ (e' = e ∨ e' ∈ l.toList) ∨ cr = .Black ∧ Turned e r' m ∧ e' ∈ l.toList) ∧
      (r' = .empty → l' = .empty ∧ Removed c (.empty : LlrbNode κ ν) n) ∧
      ∀ e'' r'', Removed cr r'' m → FixesTo c n (fixUp e'' c' l' r'') := by
  obtain ⟨hbalanced, hlean⟩ := h
  cases hbalanced with
  | @black _ _ n cl _ _ hsize hl hr =>
    have hred : l.red = true := by simpa using hlean rfl
    have hcl : cl = .Red := by simpa [hl.red_eq] using hred
    subst hcl
    obtain ⟨le, ls, ll, lr, rfl, hlsize, hll, hlr⟩ := hl.cases_red
    refine ⟨le, .Black, s, ll, .node e .Red (sizeAbove lr r) lr r, .Red, n, ?_,
      .inl ⟨ready_red (.red rfl hlr hr), .inr (by simp)⟩, by simp, ?_⟩
    · simp [readyRight, rotateRight]
    · rintro e'' r'' ⟨c', hr'', -⟩
      exact fixesTo_black e'' hll hr'' fun _ => .inl rfl
  | red hsize hl hr =>
    have hleft : l.red = false := by simp [hl.red_eq]
    cases hr with
    | empty =>
      refine ⟨e, .Red, s, l, .empty, .Black, 0, by simp [readyRight, hleft],
        .inl ⟨ready_empty, .inl rfl⟩, fun _ => ⟨hl.eq_empty, removed_red .empty⟩, ?_⟩
      exact fun e'' r'' hr'' => fixesTo_keep e'' hl hr''.black
    | @black re rs n crl rl rr hrsize hrl hrr =>
      cases crl with
      | Red =>
        have hred : rl.red = true := by simp [hrl.red_eq]
        refine ⟨e, .Red, s, l, .node re .Black rs rl rr, .Black, n + 1,
          by simp [readyRight, hleft, hred],
          .inl ⟨⟨.black hrsize hrl hrr, fun _ => .inr hred⟩, .inl rfl⟩, by simp, ?_⟩
        exact fun e'' r'' hr'' => fixesTo_keep e'' hl hr''.black
      | Black =>
        have hnot : rl.red = false := by simp [hrl.red_eq]
        have hne := hsized.ne_zero
        obtain ⟨le, ls, ll, lr, cll, rfl, hlsize, hll, hlr⟩ := hl.cases_black
        have hflip : Balanced (.node re .Red rs rl rr) .Red n := .red hrsize hrl hrr
        cases cll with
        | Black =>
          have hllnot : ll.red = false := by simp [hll.red_eq]
          refine ⟨e, .Black, s, .node le .Red ls ll lr, .node re .Red rs rl rr, .Red, n, ?_,
            .inl ⟨ready_red hflip, .inl rfl⟩, by simp, ?_⟩
          · simp [readyRight, moveRedRight, flipColor, Color.opposite, hnot, hllnot, hne]
          · rintro e'' r'' ⟨c', hr'', -⟩
            exact fixesTo_black e'' (.red hlsize hll hlr) hr'' (by simp)
        | Red =>
          obtain ⟨lle, lls, lll, llr, rfl, hllsize, hlll, hllr⟩ := hll.cases_red
          refine ⟨le, .Red, s, .node lle .Black lls lll llr,
            .node e .Black (sizeAbove lr (.node re .Red rs rl rr)) lr (.node re .Red rs rl rr),
            .Black, n + 1, ?_,
            .inr ⟨rfl, ⟨_, _, _, n, rfl, rfl, hlr, hflip, rfl⟩, by simp⟩, by simp, ?_⟩
          · simp [readyRight, moveRedRight, flipColor, Color.opposite, rotateRight, hnot, hne]
          · exact fun e'' r'' hr'' => fixesTo_keep e'' (.black hllsize hlll hllr) hr''.black

/-! ### Removing the least entry -/

theorem entry_min (hsized : t.Sized) : t.min.entry = t.toList.head? := by
  induction t with
  | empty => rfl
  | node e c s l r ihl ihr =>
    cases l with
    | empty => rfl
    | node le lc ls ll lr =>
      have hne : ¬ (node le lc ls ll lr).isEmpty = true := by
        rw [hsized.2.1.isEmpty_iff]
        exact node_ne_empty le lc ls ll lr
      rw [min, if_neg hne, ihl hsized.2.1, toList_node e, List.head?_append_of_ne_nil]
      simp

theorem Balanced.color_eq (h : Balanced (.node e c s l r) cl n) : c = cl := by
  cases h <;> rfl

theorem removeMin_last (h : t.left = .empty) : t.removeMin = some .empty := by
  rw [removeMin, dif_pos (by rw [h]; rfl)]

theorem removeMin_step (h : t.left.isEmpty = false)
    (hready : t.readyLeft = some (.node e c s l r)) :
    t.removeMin = l.removeMin.bind fun l => fixUp e c l r := by
  rw [removeMin, dif_neg (by simp [h])]
  split
  · next heq =>
    rw [hready] at heq
    cases heq
    rfl
  · next hnot => exact absurd hready (hnot e c s l r)

/-- What is removed is the first entry. -/
theorem removeMin_spec (t : LlrbNode κ ν) {c : Color} {n : ℕ} (h : Ready t c n)
    (hfew : t.toList.length < 2 ^ 31) (hne : t ≠ .empty) :
    ∃ t', t.removeMin = some t' ∧ Removed c t' n ∧ t'.toList = t.toList.tail := by
  induction hlength : t.toList.length using Nat.strong_induction_on generalizing t c n with
  | _ length ih =>
    subst hlength
    cases t with
    | empty => exact absurd rfl hne
    | node e c s l r =>
      cases h.balanced.color_eq
      have hsized := (h.balanced.sized hfew).2.1
      by_cases hleft : l = .empty
      · refine ⟨.empty, removeMin_last hleft, ?_⟩
        obtain ⟨hbalanced, hlean⟩ := h
        subst hleft
        cases hbalanced with
        | black => simp [red] at hlean
        | red hsize hl hr =>
          cases hl
          rw [hr.eq_empty]
          exact ⟨removed_red .empty, rfl⟩
      · obtain ⟨e', c', s', l', r', cl, m, hready, hl', hempty, -, hfix⟩ := readyLeft_spec h hsized
        have hl'ne : l' ≠ .empty := mt hempty hleft
        have hfull : l.isEmpty = false := by
          rw [Bool.eq_false_iff]
          exact mt hsized.isEmpty_iff.mp hleft
        have hless := length_left_lt (toList_readyLeft hready) (node_ne_empty _ _ _ _ _)
        obtain ⟨l'', hremove, hl'', htail⟩ := ih _ hless l' hl' (hless.trans hfew) hl'ne rfl
        obtain ⟨t', hfixed, ht'⟩ := hfix l'' hl''
        refine ⟨t', ?_, ht', ?_⟩
        · rw [removeMin_step (t := node e c s l r) hfull hready, hremove]
          exact hfixed
        · rw [toList_fixUp hfixed, ← toList_readyLeft hready, toList_node, htail,
            List.tail_append_of_ne_nil]
          cases l' with
          | empty => exact absurd rfl hl'ne
          | node => simp

/-! ### Removing a key -/

variable [LinearOrder κ] {key : κ}

theorem innerErase_left (hne : s ≠ 0) (hless : key < e.1) {e' : κ × ν} {c' : Color} {s' : ℕ}
    {l' r' : LlrbNode κ ν} (hready : (node e c s l r).readyLeft = some (.node e' c' s' l' r')) :
    innerErase key (.node e c s l r) = (innerErase key l').bind fun l => fixUp e' c' l r' := by
  rw [innerErase, if_neg hne, if_pos (compare_lt_iff_lt.mpr hless)]
  split
  · next heq =>
    rw [hready] at heq
    cases heq
    rfl
  · next hnot => exact absurd hready (hnot e' c' s' l' r')

theorem innerErase_right (hne : s ≠ 0) (hless : ¬ key < e.1) {e' : κ × ν} {c' : Color} {s' : ℕ}
    {l' r' : LlrbNode κ ν} (hready : (node e c s l r).readyRight = some (.node e' c' s' l' r')) :
    innerErase key (.node e c s l r) =
      if key = e'.1 then
        if r'.isEmpty then some .empty
        else r'.min.entry.bind fun smallest => r'.removeMin.bind fun r => fixUp smallest c' l' r
      else (innerErase key r').bind fun r => fixUp e' c' l' r := by
  rw [innerErase, if_neg hne, if_neg (mt compare_lt_iff_lt.mp hless)]
  split
  · next heq =>
    rw [hready] at heq
    cases heq
    exact if_congr compare_eq_iff_eq rfl rfl
  · next hnot => exact absurd hready (hnot e' c' s' l' r')

/- On the right, or here. -/
theorem innerErase_right_spec {e' : κ × ν} {c' : Color} {s' m : ℕ} {l' r' : LlrbNode κ ν}
    (hne : s ≠ 0) (hless : ¬ key < e.1)
    (hready : (node e c s l r).readyRight = some (.node e' c' s' l' r'))
    (hfew : r'.toList.length < 2 ^ 31) (hentry : e'.1 ≤ key)
    (hsorted : (l'.toList ++ e' :: r'.toList).Pairwise fun a b => a.1 < b.1)
    (hhere : key = e'.1 → Ready r' cr m)
    (hempty : r' = .empty → l' = .empty ∧ Removed cl (.empty : LlrbNode κ ν) n)
    (hfix : ∀ e'' r'', Removed cr r'' m → FixesTo cl n (fixUp e'' c' l' r''))
    (hrest : key ≠ e'.1 → ∃ r'', innerErase key r' = some r'' ∧ Removed cr r'' m ∧
      r''.toList = r'.toList.filter fun a => decide (a.1 ≠ key)) :
    ∃ t, innerErase key (.node e c s l r) = some t ∧ Removed cl t n ∧
      t.toList = (l'.toList ++ e' :: r'.toList).filter fun a => decide (a.1 ≠ key) := by
  have hleft := SortedMap.filter_ne_of_ge hsorted hentry
  rw [innerErase_right hne hless hready, List.filter_append, hleft]
  by_cases hkey : key = e'.1
  · have hright := SortedMap.filter_ne_of_le hsorted hkey.le
    have hsized := (hhere hkey).balanced.sized hfew
    rw [if_pos hkey, entry_min hsized, List.filter_cons_of_neg (by simp [hkey]), hright]
    by_cases hr' : r' = .empty
    · obtain ⟨rfl, hremoved⟩ := hempty hr'
      rw [hr', if_pos isEmpty_empty]
      exact ⟨.empty, rfl, hremoved, rfl⟩
    · rw [if_neg (mt hsized.isEmpty_iff.mp hr')]
      obtain ⟨r'', hremove, hr'', htail⟩ := removeMin_spec r' (hhere hkey) hfew hr'
      cases hlist : r'.toList with
      | nil =>
        cases r' with
        | empty => exact absurd rfl hr'
        | node => simp at hlist
      | cons smallest rest =>
        obtain ⟨t, hfixed, ht⟩ := hfix smallest r'' hr''
        refine ⟨t, ?_, ht, ?_⟩
        · rw [hremove]
          exact hfixed
        · rw [toList_fixUp hfixed, htail, hlist, List.tail_cons]
  · rw [if_neg hkey, List.filter_cons_of_pos (by simpa using fun h => hkey h.symm)]
    obtain ⟨r'', herase, hr'', hlist⟩ := hrest hkey
    obtain ⟨t, hfixed, ht⟩ := hfix e' r'' hr''
    refine ⟨t, ?_, ht, ?_⟩
    · rw [herase]
      exact hfixed
    · rw [toList_fixUp hfixed, hlist]

theorem pairwise_left {a : κ × ν} {as bs : List (κ × ν)}
    (h : (as ++ a :: bs).Pairwise fun a b => a.1 < b.1) : as.Pairwise fun a b => a.1 < b.1 :=
  (List.pairwise_append.mp h).1

theorem pairwise_right {a : κ × ν} {as bs : List (κ × ν)}
    (h : (as ++ a :: bs).Pairwise fun a b => a.1 < b.1) : bs.Pairwise fun a b => a.1 < b.1 :=
  (List.pairwise_cons.mp (List.pairwise_append.mp h).2.1).2

/-- What is removed is the entry of the key. -/
theorem innerErase_spec (t : LlrbNode κ ν) {c : Color} {n : ℕ}
    (h : Ready t c n ∨ c = .Black ∧ ∃ e, Turned e t n ∧ e.1 ≤ key)
    (hfew : t.toList.length < 2 ^ 31) (hsorted : t.toList.Pairwise fun a b => a.1 < b.1) :
    ∃ t', innerErase key t = some t' ∧ Removed c t' n ∧
      t'.toList = t.toList.filter fun a => decide (a.1 ≠ key) := by
  induction hlength : t.toList.length using Nat.strong_induction_on generalizing t c n with
  | _ length ih =>
    subst hlength
    rcases h with h | ⟨rfl, e, hturned, hle⟩
    · cases t with
      | empty => exact ⟨.empty, by rw [innerErase], ⟨c, h.balanced, id⟩, rfl⟩
      | node e c s l r =>
        cases h.balanced.color_eq
        have hsized := h.balanced.sized hfew
        have hne := hsized.ne_zero
        obtain ⟨hbelow, habove⟩ := SortedMap.below_above hsorted
        by_cases hless : key < e.1
        · obtain ⟨e', c', s', l', r', cl, m, hready, hl', -, hentry, hfix⟩ :=
            readyLeft_spec h hsized.2.1
          have hlist := toList_readyLeft hready
          have hkey : key < e'.1 := by
            rcases hentry with rfl | hmem
            · exact hless
            · exact hless.trans (habove e' hmem)
          rw [← hlist] at hsorted hfew ih ⊢
          have hlt : l'.toList.length < (node e' c' s' l' r').toList.length :=
            length_left_lt rfl (node_ne_empty e' c' s' l' r')
          obtain ⟨l'', herase, hl'', hfilter⟩ := ih _ hlt l' (.inl hl') (hlt.trans hfew)
            (pairwise_left hsorted) rfl
          obtain ⟨t', hfixed, ht'⟩ := hfix l'' hl''
          refine ⟨t', ?_, ht', ?_⟩
          · rw [innerErase_left hne hless hready, herase]
            exact hfixed
          · rw [toList_fixUp hfixed, hfilter, toList_node, List.filter_append,
              List.filter_cons_of_pos (by simpa using hkey.ne'),
              SortedMap.filter_ne_of_le hsorted hkey.le]
        · obtain ⟨e', c', s', l', r', cr, m, hready, hr', hempty, hfix⟩ :=
            readyRight_spec h hsized.2.2
          have hlist := toList_readyRight hready
          have hle : e.1 ≤ key := not_lt.mp hless
          rw [← hlist] at hsorted hfew ih ⊢
          have hlt : r'.toList.length < (node e' c' s' l' r').toList.length := by
            simp only [toList_node, List.length_append, List.length_cons]
            omega
          rcases hr' with ⟨hr', hentry⟩ | ⟨rfl, hturned, hmem⟩
          · have hentry : e'.1 ≤ key := by
              rcases hentry with rfl | hmem
              · exact hle
              · exact (hbelow e' hmem).le.trans hle
            exact innerErase_right_spec hne hless hready (hlt.trans hfew) hentry hsorted
              (fun _ => hr') hempty hfix
              fun _ => ih _ hlt r' (.inl hr') (hlt.trans hfew) (pairwise_right hsorted) rfl
          · have hlow : e'.1 < key := (hbelow e' hmem).trans_le hle
            exact innerErase_right_spec hne hless hready (hlt.trans hfew) hlow.le hsorted
              (fun hkey => absurd hkey hlow.ne') hempty hfix
              fun _ => ih _ hlt r' (.inr ⟨rfl, e, hturned, hle⟩) (hlt.trans hfew)
                (pairwise_right hsorted) rfl
    · obtain ⟨s, l, r, m, hready, rfl, hr, hne, hfix⟩ := readyRight_turned hturned
      have hlt : r.toList.length < (node e .Black s l r).toList.length := by
        simp only [toList_node, List.length_append, List.length_cons]
        omega
      exact innerErase_right_spec (hturned.ne_zero hfew) (not_lt.mpr hle) hready (hlt.trans hfew)
        hle hsorted (fun _ => hr) (fun hempty => absurd hempty hne) hfix
        fun _ => ih _ hlt r (.inl hr) (hlt.trans hfew) (pairwise_right hsorted) rfl

/-! ### The root -/

section Root
omit [LinearOrder κ]

/- No step reads the colour of its own root. -/
def recolor : LlrbNode κ ν → LlrbNode κ ν
  | .empty => .empty
  | .node e c s l r => .node e c.opposite s l r

@[simp] theorem recolor_node (e : κ × ν) (c : Color) (s : ℕ) (l r : LlrbNode κ ν) :
    (node e c s l r).recolor = .node e c.opposite s l r := rfl

@[simp] theorem left_recolor (t : LlrbNode κ ν) : t.recolor.left = t.left := by cases t <;> rfl

@[simp] theorem right_recolor (t : LlrbNode κ ν) : t.recolor.right = t.right := by cases t <;> rfl

theorem setRight_recolor (t r : LlrbNode κ ν) : t.recolor.setRight r = (t.setRight r).recolor := by
  cases t <;> rfl

theorem rotateLeft_recolor (t : LlrbNode κ ν) :
    t.recolor.rotateLeft = t.rotateLeft.map recolor := by
  cases t with
  | empty => rfl
  | node e c s l r => cases r <;> rfl

theorem rotateRight_recolor (t : LlrbNode κ ν) :
    t.recolor.rotateRight = t.rotateRight.map recolor := by
  cases t with
  | empty => rfl
  | node e c s l r => cases l <;> rfl

theorem flipColor_recolor (t : LlrbNode κ ν) : t.recolor.flipColor = t.flipColor.map recolor := by
  cases t with
  | empty => rfl
  | node e c s l r => cases l <;> cases r <;> rfl

/- A step that may be left out, and those behind it. -/
theorem bind_recolor {step step' : Option (LlrbNode κ ν)}
    {next : LlrbNode κ ν → Option (LlrbNode κ ν)} (hstep : step' = step.map recolor)
    (hnext : ∀ t, next t.recolor = (next t).map recolor) :
    step'.bind next = (step.bind next).map recolor := by
  rw [hstep]
  cases step with
  | none => rfl
  | some t => exact hnext t

theorem ite_recolor {step step' : Option (LlrbNode κ ν)} (b : Bool) (t : LlrbNode κ ν)
    (hstep : step' = step.map recolor) :
    (if b then step' else some t.recolor) = (if b then step else some t).map recolor := by
  cases b with
  | true => exact hstep
  | false => rfl

theorem fixUp_recolor (e : κ × ν) (c : Color) (l r : LlrbNode κ ν) :
    fixUp e c.opposite l r = (fixUp e c l r).map recolor := by
  unfold fixUp
  refine bind_recolor ?_ fun t => bind_recolor ?_ fun t => ?_
  · exact ite_recolor _ (.node e c _ l r) (rotateLeft_recolor (.node e c _ l r))
  · rw [left_recolor]
    exact ite_recolor _ t (rotateRight_recolor t)
  · rw [left_recolor, right_recolor]
    exact ite_recolor _ t (flipColor_recolor t)

theorem moveRedLeft_recolor (t : LlrbNode κ ν) :
    t.recolor.moveRedLeft = t.moveRedLeft.map recolor := by
  unfold moveRedLeft
  refine bind_recolor (flipColor_recolor t) fun t => ?_
  rw [right_recolor]
  refine ite_recolor _ t ?_
  cases t.right.rotateRight with
  | none => rfl
  | some newRight =>
    rw [Option.bind_some, Option.bind_some, setRight_recolor]
    exact bind_recolor (rotateLeft_recolor _) flipColor_recolor

theorem moveRedRight_recolor (t : LlrbNode κ ν) :
    t.recolor.moveRedRight = t.moveRedRight.map recolor := by
  unfold moveRedRight
  refine bind_recolor (flipColor_recolor t) fun t => ?_
  rw [left_recolor]
  exact ite_recolor _ t (bind_recolor (rotateRight_recolor t) flipColor_recolor)

theorem readyLeft_recolor (t : LlrbNode κ ν) : t.recolor.readyLeft = t.readyLeft.map recolor := by
  unfold readyLeft
  rw [left_recolor]
  exact ite_recolor _ t (moveRedLeft_recolor t)

theorem readyRight_recolor (t : LlrbNode κ ν) :
    t.recolor.readyRight = t.readyRight.map recolor := by
  unfold readyRight
  rw [left_recolor]
  refine bind_recolor (ite_recolor _ t (rotateRight_recolor t)) fun t => ?_
  rw [right_recolor]
  exact ite_recolor _ t (moveRedRight_recolor t)

theorem fixRootColor_recolor (t : LlrbNode κ ν) : t.recolor.fixRootColor = t.fixRootColor := by
  cases t <;> rfl

end Root

/- A black root gives what a red one gives, recoloured or not. -/
theorem innerErase_recolor (h : Ready (.node e .Red s l r) .Red n)
    (hsized : (node e .Red s l r).Sized) :
    (innerErase key (.node e .Black s l r)).map fixRootColor =
      (innerErase key (.node e .Red s l r)).map fixRootColor := by
  have hmap (fixed : Option (LlrbNode κ ν)) :
      (fixed.map recolor).map fixRootColor = fixed.map fixRootColor := by
    cases fixed with
    | none => rfl
    | some t => simp [fixRootColor_recolor]
  have hne := hsized.ne_zero
  by_cases hless : key < e.1
  · obtain ⟨e', c', s', l', r', cl, m, hready, -⟩ := readyLeft_spec h hsized.2.1
    have hready' : (node e .Black s l r).readyLeft = some (.node e' c'.opposite s' l' r') := by
      have hrecolor := readyLeft_recolor (.node e .Red s l r)
      rw [hready] at hrecolor
      exact hrecolor
    rw [innerErase_left hne hless hready, innerErase_left hne hless hready']
    cases innerErase key l' with
    | none => rfl
    | some l'' =>
      rw [Option.bind_some, Option.bind_some, fixUp_recolor, hmap]
  · obtain ⟨e', c', s', l', r', cr, m, hready, -⟩ := readyRight_spec h hsized.2.2
    have hready' : (node e .Black s l r).readyRight = some (.node e' c'.opposite s' l' r') := by
      have hrecolor := readyRight_recolor (.node e .Red s l r)
      rw [hready] at hrecolor
      exact hrecolor
    rw [innerErase_right hne hless hready, innerErase_right hne hless hready']
    by_cases hkey : key = e'.1
    · rw [if_pos hkey, if_pos hkey]
      cases r'.isEmpty with
      | true => rfl
      | false =>
        rw [if_neg Bool.false_ne_true, if_neg Bool.false_ne_true]
        cases r'.min.entry with
        | none => rfl
        | some smallest =>
          cases r'.removeMin with
          | none => rfl
          | some r'' => simp only [Option.bind_some, fixUp_recolor, hmap]
    · rw [if_neg hkey, if_neg hkey]
      cases innerErase key r' with
      | none => rfl
      | some r'' => simp only [Option.bind_some, fixUp_recolor, hmap]

theorem erase_spec (key : κ) (h : Balanced t .Black n) (hfew : t.toList.length < 2 ^ 31)
    (hsorted : t.toList.Pairwise fun a b => a.1 < b.1) :
    ∃ t' n', t.erase key = some t' ∧ Balanced t' .Black n' ∧
      t'.toList = t.toList.filter fun a => decide (a.1 ≠ key) := by
  -- a tree that may be entered as it is, or with a red root
  have hready : ∃ c n t₀, Ready t₀ c n ∧ t₀.toList = t.toList ∧
      t.erase key = (innerErase key t₀).map fixRootColor := by
    cases h with
    | empty => exact ⟨_, _, _, ready_empty, rfl, rfl⟩
    | @black e s n c l r hsize hl hr =>
      cases c with
      | Red =>
        have hred : l.red = true := by simp [hl.red_eq]
        exact ⟨_, _, _, ⟨.black hsize hl hr, fun _ => .inr hred⟩, rfl, rfl⟩
      | Black =>
        have hred : Ready (.node e .Red s l r) .Red n := ready_red (.red hsize hl hr)
        exact ⟨_, _, _, hred, rfl, innerErase_recolor hred (hred.balanced.sized hfew)⟩
  obtain ⟨c, m, t₀, ht₀, hlist, herase⟩ := hready
  rw [← hlist] at hsorted hfew ⊢
  obtain ⟨t', hinner, ⟨c', ht', -⟩, hfilter⟩ := innerErase_spec t₀ (.inl ht₀) hfew hsorted
  obtain ⟨n', hroot⟩ := ht'.fixRootColor
  refine ⟨t'.fixRootColor, n', ?_, hroot, ?_⟩
  · rw [herase, hinner, Option.map_some]
  · rw [toList_fixRootColor, hfilter]

end LlrbNode
end PracticeApps.Firestore
