import Mathlib.Data.List.Induction
import Mathlib.Data.List.Sort
import Mathlib.Data.List.TakeWhile
import Mathlib.Order.Defs.LinearOrder

/-!
# Sorted maps

Maps as lists of entries in the order of their keys. An iterator into such a map
is what is left of the list.
-/

namespace PracticeApps

/- The order of a comparator. -/
@[reducible] def orderOf {α : Type} (cmp : α → α → Ordering) [Std.TransCmp cmp]
    [Std.LawfulEqCmp cmp] : LinearOrder α where
  le a b := (cmp a b).isLE = true
  le_refl a := Std.ReflCmp.isLE_rfl
  le_trans a b c := Std.TransCmp.isLE_trans
  le_antisymm a b hab hba :=
    Std.LawfulEqCmp.eq_of_compare (Std.OrientedCmp.isLE_antisymm hab hba)
  le_total a b := by
    cases hcompare : cmp a b with
    | lt => exact Or.inl rfl
    | eq => exact Or.inl rfl
    | gt =>
      have hswap : cmp b a = (cmp a b).swap := Std.OrientedCmp.eq_swap
      right
      rw [hswap, hcompare]
      rfl
  toDecidableLE a b := inferInstanceAs (Decidable ((cmp a b).isLE = true))

variable {κ ν : Type} [LinearOrder κ]

structure SortedMap (κ ν : Type) [LinearOrder κ] where
  entries : List (κ × ν)
  sorted : entries.Pairwise fun a b => a.1 < b.1

namespace SortedMap

def empty : SortedMap κ ν := { entries := [], sorted := List.Pairwise.nil }

def find? (m : SortedMap κ ν) (k : κ) : Option ν :=
  (m.entries.find? fun e => decide (e.1 = k)).map Prod.snd

def contains (m : SortedMap κ ν) (k : κ) : Bool := (m.find? k).isSome

def erase (m : SortedMap κ ν) (k : κ) : SortedMap κ ν where
  entries := m.entries.filter fun e => decide (e.1 ≠ k)
  sorted := m.sorted.filter _

/- The new entry between those below and those above. -/
def insert (m : SortedMap κ ν) (k : κ) (v : ν) : SortedMap κ ν where
  entries := (m.entries.filter fun e => decide (e.1 < k)) ++
    (k, v) :: m.entries.filter fun e => decide (k < e.1)
  sorted := by
    rw [List.pairwise_append, List.pairwise_cons]
    refine ⟨m.sorted.filter _, ⟨?_, m.sorted.filter _⟩, ?_⟩
    · intro e he
      exact of_decide_eq_true (List.mem_filter.mp he).2
    · intro e he e' he'
      have hlow := of_decide_eq_true (List.mem_filter.mp he).2
      rcases List.mem_cons.mp he' with rfl | he'
      · exact hlow
      · exact lt_trans hlow (of_decide_eq_true (List.mem_filter.mp he').2)

/- The first entry that is not below the key, and those behind it. -/
def lowerBound (m : SortedMap κ ν) (k : κ) : List (κ × ν) :=
  m.entries.dropWhile fun e => decide (e.1 < k)

/-! ### Entries -/

theorem key_injective {es : List (κ × ν)} (h : es.Pairwise fun a b => a.1 < b.1) {a b : κ × ν}
    (ha : a ∈ es) (hb : b ∈ es) (hkey : a.1 = b.1) : a = b := by
  induction es with
  | nil => exact absurd ha List.not_mem_nil
  | cons e es ih =>
    obtain ⟨hfirst, hrest⟩ := List.pairwise_cons.mp h
    rcases List.mem_cons.mp ha with rfl | hlate
    · rcases List.mem_cons.mp hb with rfl | hlate
      · rfl
      · exact absurd hkey (ne_of_lt (hfirst b hlate))
    · rcases List.mem_cons.mp hb with rfl | hlate'
      · exact absurd hkey (ne_of_gt (hfirst a hlate))
      · exact ih hrest hlate hlate'

theorem find?_eq_some {m : SortedMap κ ν} {k : κ} {v : ν} :
    m.find? k = some v ↔ (k, v) ∈ m.entries := by
  unfold find?
  constructor
  · intro h
    obtain ⟨e, he, rfl⟩ := Option.map_eq_some_iff.mp h
    have hkey := of_decide_eq_true (List.find?_some (p := fun e : κ × ν => decide (e.1 = k)) he)
    subst hkey
    exact List.mem_of_find?_eq_some he
  · intro h
    cases hfind : m.entries.find? fun e => decide (e.1 = k) with
    | none =>
      have hnot := List.find?_eq_none.mp hfind (k, v) h
      exact absurd (decide_eq_true rfl) hnot
    | some e =>
      have hkey := of_decide_eq_true (List.find?_some (p := fun e : κ × ν => decide (e.1 = k)) hfind)
      have hsame := key_injective m.sorted (List.mem_of_find?_eq_some hfind) h hkey
      rw [hsame]
      rfl

theorem find?_eq_none {m : SortedMap κ ν} {k : κ} :
    m.find? k = none ↔ ∀ v, (k, v) ∉ m.entries := by
  constructor
  · intro h v hmem
    rw [find?_eq_some.mpr hmem] at h
    cases h
  · intro h
    cases hfind : m.find? k with
    | none => rfl
    | some v => exact absurd (find?_eq_some.mp hfind) (h v)

/- Maps with the same entries find the same. -/
theorem find?_congr {m m' : SortedMap κ ν} {k : κ}
    (h : ∀ v, (k, v) ∈ m.entries ↔ (k, v) ∈ m'.entries) : m.find? k = m'.find? k := by
  apply Option.ext
  intro v
  exact find?_eq_some.trans ((h v).trans find?_eq_some.symm)

theorem find?_erase (m : SortedMap κ ν) (k k' : κ) :
    (m.erase k).find? k' = if k' = k then none else m.find? k' := by
  by_cases hkey : k' = k
  · rw [if_pos hkey, find?_eq_none]
    intro v hmem
    exact of_decide_eq_true (List.mem_filter.mp hmem).2 hkey
  · rw [if_neg hkey]
    apply find?_congr
    intro v
    unfold erase
    rw [List.mem_filter, decide_eq_true hkey]
    exact ⟨And.left, fun h => ⟨h, rfl⟩⟩

theorem find?_insert (m : SortedMap κ ν) (k k' : κ) (v : ν) :
    (m.insert k v).find? k' = if k' = k then some v else m.find? k' := by
  by_cases hkey : k' = k
  · rw [if_pos hkey, find?_eq_some, hkey]
    exact List.mem_append_right _ List.mem_cons_self
  · rw [if_neg hkey]
    apply find?_congr
    intro w
    unfold insert
    rw [List.mem_append, List.mem_cons, List.mem_filter, List.mem_filter]
    constructor
    · rintro (h | h | h)
      · exact h.1
      · exact absurd (congrArg Prod.fst h) hkey
      · exact h.1
    · intro h
      rcases lt_or_gt_of_ne hkey with hlow | hhigh
      · exact Or.inl ⟨h, decide_eq_true hlow⟩
      · exact Or.inr (Or.inr ⟨h, decide_eq_true hhigh⟩)

/-! ### What is left of a sorted list -/

/- Skipping up to a key keeps what is not below it. -/
theorem dropWhile_lt {es : List (κ × ν)} (h : es.Pairwise fun a b => a.1 < b.1) (k : κ) :
    es.dropWhile (fun e => decide (e.1 < k)) = es.filter fun e => decide (k ≤ e.1) := by
  induction es with
  | nil => rfl
  | cons e es ih =>
    obtain ⟨hfirst, hrest⟩ := List.pairwise_cons.mp h
    by_cases hlow : e.1 < k
    · rw [List.dropWhile_cons_of_pos (by rw [decide_eq_true_eq]; exact hlow),
        List.filter_cons_of_neg (by rw [decide_eq_true_eq]; exact not_le.mpr hlow), ih hrest]
    · have hle := not_lt.mp hlow
      rw [List.dropWhile_cons_of_neg (by rw [decide_eq_true_eq]; exact hlow)]
      symm
      rw [List.filter_eq_self]
      intro e' he'
      rw [decide_eq_true_eq]
      rcases List.mem_cons.mp he' with rfl | he'
      · exact hle
      · exact le_trans hle (le_of_lt (hfirst e' he'))

/- And what is skipped is what is below it. -/
theorem takeWhile_lt {es : List (κ × ν)} (h : es.Pairwise fun a b => a.1 < b.1) (k : κ) :
    es.takeWhile (fun e => decide (e.1 < k)) = es.filter fun e => decide (e.1 < k) := by
  induction es with
  | nil => rfl
  | cons e es ih =>
    obtain ⟨hfirst, hrest⟩ := List.pairwise_cons.mp h
    by_cases hlow : e.1 < k
    · simp [hlow, ih hrest]
    · have hnone : es.filter (fun e' => decide (e'.1 < k)) = [] := by
        rw [List.filter_eq_nil_iff]
        intro e' he'
        simpa using (not_lt.mp hlow).trans (hfirst e' he').le
      simp [hlow, hnone]

theorem lowerBound_eq (m : SortedMap κ ν) (k : κ) :
    m.lowerBound k = m.entries.filter fun e => decide (k ≤ e.1) := dropWhile_lt m.sorted k

/- Behind the first entry is what is above its key. -/
theorem tail_eq_filter {e : κ × ν} {es : List (κ × ν)}
    (h : (e :: es).Pairwise fun a b => a.1 < b.1) :
    es = (e :: es).filter fun e' => decide (e.1 < e'.1) := by
  obtain ⟨hfirst, -⟩ := List.pairwise_cons.mp h
  rw [List.filter_cons_of_neg (by rw [decide_eq_true_eq]; exact lt_irrefl _)]
  symm
  rw [List.filter_eq_self]
  intro e' he'
  exact decide_eq_true (hfirst e' he')

/- The same when some entries in front are skipped. -/
theorem tail_dropWhile {skip : κ × ν → Bool} {es rest : List (κ × ν)} {e : κ × ν}
    (h : es.Pairwise fun a b => a.1 < b.1) (hdrop : es.dropWhile skip = e :: rest) :
    rest = es.filter fun e' => decide (e.1 < e'.1) := by
  induction es with
  | nil => cases hdrop
  | cons a es ih =>
    obtain ⟨hfirst, hrest⟩ := List.pairwise_cons.mp h
    by_cases hskip : skip a = true
    · rw [List.dropWhile_cons_of_pos hskip] at hdrop
      have hmem : e ∈ es := by
        have hin : e ∈ es.dropWhile skip := by
          rw [hdrop]
          exact List.mem_cons_self
        exact List.dropWhile_subset _ hin
      rw [List.filter_cons_of_neg (by
        rw [decide_eq_true_eq]
        exact not_lt_of_gt (hfirst e hmem))]
      exact ih hrest hdrop
    · rw [List.dropWhile_cons_of_neg hskip] at hdrop
      cases hdrop
      exact tail_eq_filter h

/- If what is left is above a key, the entries up to the key were all skipped. -/
theorem dropWhile_filter {skip : κ × ν → Bool} {es : List (κ × ν)} {k : κ}
    (h : es.Pairwise fun a b => a.1 < b.1) (habove : ∀ e ∈ es.dropWhile skip, k < e.1) :
    (es.filter fun e => decide (k < e.1)).dropWhile skip = es.dropWhile skip := by
  induction es with
  | nil => rfl
  | cons a es ih =>
    obtain ⟨hfirst, hrest⟩ := List.pairwise_cons.mp h
    by_cases hskip : skip a = true
    · rw [List.dropWhile_cons_of_pos hskip] at habove ⊢
      by_cases hhigh : k < a.1
      · rw [List.filter_cons_of_pos (by rw [decide_eq_true_eq]; exact hhigh),
          List.dropWhile_cons_of_pos hskip]
        exact ih hrest habove
      · rw [List.filter_cons_of_neg (by rw [decide_eq_true_eq]; exact hhigh)]
        exact ih hrest habove
    · rw [List.dropWhile_cons_of_neg hskip] at habove
      have hall : (a :: es).filter (fun e => decide (k < e.1)) = a :: es :=
        List.filter_eq_self.mpr fun e he => decide_eq_true (habove e he)
      rw [hall]

/- What is not below one key, cut at another. -/
theorem filter_between {es : List (κ × ν)} (h : es.Pairwise fun a b => a.1 < b.1) {k k' : κ}
    (hle : k ≤ k') : (es.filter fun e => decide (k ≤ e.1)) =
      (es.filter fun e => decide (k ≤ e.1 ∧ e.1 < k')) ++ es.filter fun e => decide (k' ≤ e.1) := by
  have hsorted := h.filter fun e => decide (k ≤ e.1)
  have hbelow : (es.filter fun e => decide (k ≤ e.1 ∧ e.1 < k')) =
      (es.filter fun e => decide (k ≤ e.1)).filter fun e => decide (e.1 < k') := by
    rw [List.filter_filter]
    congr 1
    funext e
    rw [Bool.decide_and, Bool.and_comm]
  have habove : (es.filter fun e => decide (k' ≤ e.1)) =
      (es.filter fun e => decide (k ≤ e.1)).filter fun e => decide (k' ≤ e.1) := by
    rw [List.filter_filter]
    congr 1
    funext e
    by_cases hkey : k' ≤ e.1 <;> simp [hkey]
    exact hle.trans hkey
  rw [hbelow, habove, ← takeWhile_lt hsorted, ← dropWhile_lt hsorted,
    List.takeWhile_append_dropWhile]

/- A key above all others comes last. -/
theorem entries_insert_last {m : SortedMap κ ν} {k : κ} (v : ν) (h : ∀ e ∈ m.entries, e.1 < k) :
    (m.insert k v).entries = m.entries ++ [(k, v)] := by
  have hall : (m.entries.filter fun e => decide (e.1 < k)) = m.entries := by
    rw [List.filter_eq_self]
    intro e he
    simpa using h e he
  have hnone : (m.entries.filter fun e => decide (k < e.1)) = [] := by
    rw [List.filter_eq_nil_iff]
    intro e he
    simpa using (h e he).le
  have hentries : (m.insert k v).entries = (m.entries.filter fun e => decide (e.1 < k)) ++
      (k, v) :: m.entries.filter fun e => decide (k < e.1) := rfl
  rw [hentries, hall, hnone]

/-! ### Around an entry -/

section Around
variable {l r : List (κ × ν)} {e : κ × ν} {k : κ}

theorem below_above (h : (l ++ e :: r).Pairwise fun a b => a.1 < b.1) :
    (∀ x ∈ l, x.1 < e.1) ∧ ∀ y ∈ r, e.1 < y.1 := by
  obtain ⟨-, hright, hacross⟩ := List.pairwise_append.mp h
  exact ⟨fun x hx => hacross x hx e List.mem_cons_self, (List.pairwise_cons.mp hright).1⟩

theorem filter_lt_of_le (h : (l ++ e :: r).Pairwise fun a b => a.1 < b.1) (hk : k ≤ e.1) :
    (l ++ e :: r).filter (fun e' => decide (e'.1 < k)) = l.filter fun e' => decide (e'.1 < k) := by
  obtain ⟨-, habove⟩ := below_above h
  have hnone : r.filter (fun e' => decide (e'.1 < k)) = [] := by
    rw [List.filter_eq_nil_iff]
    intro y hy
    simpa using hk.trans (habove y hy).le
  simp [not_lt.mpr hk, hnone]

theorem filter_lt_of_lt (h : (l ++ e :: r).Pairwise fun a b => a.1 < b.1) (hk : e.1 < k) :
    (l ++ e :: r).filter (fun e' => decide (e'.1 < k)) =
      l ++ e :: r.filter fun e' => decide (e'.1 < k) := by
  obtain ⟨hbelow, -⟩ := below_above h
  have hall : l.filter (fun e' => decide (e'.1 < k)) = l := by
    rw [List.filter_eq_self]
    intro x hx
    simpa using (hbelow x hx).trans hk
  simp [hk, hall]

theorem filter_gt_of_le (h : (l ++ e :: r).Pairwise fun a b => a.1 < b.1) (hk : e.1 ≤ k) :
    (l ++ e :: r).filter (fun e' => decide (k < e'.1)) = r.filter fun e' => decide (k < e'.1) := by
  obtain ⟨hbelow, -⟩ := below_above h
  have hnone : l.filter (fun e' => decide (k < e'.1)) = [] := by
    rw [List.filter_eq_nil_iff]
    intro x hx
    simpa using (hbelow x hx).le.trans hk
  simp [not_lt.mpr hk, hnone]

theorem filter_gt_of_lt (h : (l ++ e :: r).Pairwise fun a b => a.1 < b.1) (hk : k < e.1) :
    (l ++ e :: r).filter (fun e' => decide (k < e'.1)) =
      l.filter (fun e' => decide (k < e'.1)) ++ e :: r := by
  obtain ⟨-, habove⟩ := below_above h
  have hall : r.filter (fun e' => decide (k < e'.1)) = r := by
    rw [List.filter_eq_self]
    intro y hy
    simpa using hk.trans (habove y hy)
  simp [hk, hall]

theorem filter_ge_of_lt (h : (l ++ e :: r).Pairwise fun a b => a.1 < b.1) (hk : e.1 < k) :
    (l ++ e :: r).filter (fun e' => decide (k ≤ e'.1)) = r.filter fun e' => decide (k ≤ e'.1) := by
  obtain ⟨hbelow, -⟩ := below_above h
  have hnone : l.filter (fun e' => decide (k ≤ e'.1)) = [] := by
    rw [List.filter_eq_nil_iff]
    intro x hx
    simpa using (hbelow x hx).trans hk
  simp [not_le.mpr hk, hnone]

theorem filter_ge_of_le (h : (l ++ e :: r).Pairwise fun a b => a.1 < b.1) (hk : k ≤ e.1) :
    (l ++ e :: r).filter (fun e' => decide (k ≤ e'.1)) =
      l.filter (fun e' => decide (k ≤ e'.1)) ++ e :: r := by
  obtain ⟨-, habove⟩ := below_above h
  have hall : r.filter (fun e' => decide (k ≤ e'.1)) = r := by
    rw [List.filter_eq_self]
    intro y hy
    simpa using hk.trans (habove y hy).le
  simp [hk, hall]

/- An entry and those behind it are what is not below its key. -/
theorem filter_ge_self (h : (l ++ e :: r).Pairwise fun a b => a.1 < b.1) :
    (l ++ e :: r).filter (fun e' => decide (e.1 ≤ e'.1)) = e :: r := by
  have hnone : l.filter (fun e' => decide (e.1 ≤ e'.1)) = [] := by
    rw [List.filter_eq_nil_iff]
    intro x hx
    simpa using (below_above h).1 x hx
  rw [filter_ge_of_le h le_rfl, hnone, List.nil_append]

theorem filter_lt_self (h : (l ++ e :: r).Pairwise fun a b => a.1 < b.1) :
    (l ++ e :: r).filter (fun e' => decide (e'.1 < e.1)) = l := by
  rw [filter_lt_of_le h le_rfl, List.filter_eq_self]
  intro x hx
  exact decide_eq_true ((below_above h).1 x hx)

theorem filter_gt_self (h : (l ++ e :: r).Pairwise fun a b => a.1 < b.1) :
    (l ++ e :: r).filter (fun e' => decide (e.1 < e'.1)) = r := by
  rw [filter_gt_of_le h le_rfl, List.filter_eq_self]
  intro y hy
  exact decide_eq_true ((below_above h).2 y hy)

theorem filter_ne_of_le (h : (l ++ e :: r).Pairwise fun a b => a.1 < b.1) (hk : k ≤ e.1) :
    r.filter (fun e' => decide (e'.1 ≠ k)) = r := by
  obtain ⟨-, habove⟩ := below_above h
  rw [List.filter_eq_self]
  intro y hy
  simpa using (lt_of_le_of_lt hk (habove y hy)).ne'

theorem filter_ne_of_ge (h : (l ++ e :: r).Pairwise fun a b => a.1 < b.1) (hk : e.1 ≤ k) :
    l.filter (fun e' => decide (e'.1 ≠ k)) = l := by
  obtain ⟨hbelow, -⟩ := below_above h
  rw [List.filter_eq_self]
  intro x hx
  simpa using (lt_of_lt_of_le (hbelow x hx) hk).ne

end Around

/-! ### From a key on -/

/- The entry of the key and those behind it, nothing when it has none. -/
def startingAt (m : SortedMap κ ν) (k : κ) : List (κ × ν) :=
  m.entries.dropWhile fun e => !decide (e.1 = k)

theorem find?_eq_startingAt (m : SortedMap κ ν) (k : κ) :
    m.find? k = (m.startingAt k).head?.map Prod.snd := by
  unfold find? startingAt
  rw [List.find?_eq_head?_dropWhile_not]

theorem head?_startingAt (m : SortedMap κ ν) (k : κ) :
    (m.startingAt k).head? = (m.find? k).map fun v => (k, v) := by
  rw [find?_eq_startingAt]
  cases hhead : (m.startingAt k).head? with
  | none => rfl
  | some e =>
    have hskipped := List.head?_dropWhile_not (fun e => !decide (e.1 = k)) m.entries
    unfold startingAt at hhead
    rw [hhead] at hskipped
    have hkey : e.1 = k := by simpa using hskipped
    rw [← hkey]
    rfl

/- The lower bound points to the entry of the key, or there is none. -/
theorem startingAt_eq (m : SortedMap κ ν) (k : κ) :
    m.startingAt k =
      if (m.lowerBound k).head?.map Prod.fst = some k then m.lowerBound k else [] := by
  by_cases hmem : ∃ e ∈ m.entries, e.1 = k
  · obtain ⟨e, hmem, rfl⟩ := hmem
    obtain ⟨before, rest, hentries⟩ := List.append_of_mem hmem
    have hsorted := m.sorted
    rw [hentries] at hsorted
    have hlower : m.lowerBound e.1 = e :: rest := by
      rw [lowerBound_eq, hentries, filter_ge_self hsorted]
    have hskipped : ∀ a ∈ before, (!decide (a.1 = e.1)) = true := by
      intro a ha
      simpa using ((below_above hsorted).1 a ha).ne
    rw [if_pos (by rw [hlower]; rfl), hlower]
    unfold startingAt
    rw [hentries, List.dropWhile_append_of_pos hskipped, List.dropWhile_cons_of_neg (by simp)]
  · have hnot : ∀ e ∈ m.entries, e.1 ≠ k := fun e he hkey => hmem ⟨e, he, hkey⟩
    have hhead : (m.lowerBound k).head?.map Prod.fst ≠ some k := by
      intro hhead
      obtain ⟨e, hhead, hkey⟩ := Option.map_eq_some_iff.mp hhead
      exact hnot e ((List.dropWhile_sublist _).subset (List.mem_of_head? hhead)) hkey
    rw [if_neg hhead]
    apply List.dropWhile_eq_nil_iff.mpr
    intro e he
    simpa using hnot e he

/-! ### Updates -/

/- An entry to be written, or a key to be erased. -/
def update (m : SortedMap κ ν) (c : κ × Option ν) : SortedMap κ ν :=
  match c.2 with
  | some v => m.insert c.1 v
  | none => m.erase c.1

def updates (m : SortedMap κ ν) (cs : List (κ × Option ν)) : SortedMap κ ν := cs.foldl update m

theorem find?_update (m : SortedMap κ ν) (c : κ × Option ν) (k : κ) :
    (m.update c).find? k = if k = c.1 then c.2 else m.find? k := by
  obtain ⟨key, value⟩ := c
  cases value with
  | none => exact find?_erase m key k
  | some v => exact find?_insert m key k v

/- A change adds at most one entry. -/
theorem length_update_le (m : SortedMap κ ν) (c : κ × Option ν) :
    (m.update c).entries.length ≤ m.entries.length + 1 := by
  obtain ⟨k, value⟩ := c
  cases value with
  | none => exact Nat.le_succ_of_le (List.length_filter_le _ _)
  | some v =>
    have hsplit := List.length_eq_length_filter_add (l := m.entries) fun e => decide (e.1 < k)
    have habove : (m.entries.filter fun e => decide (k < e.1)).length ≤
        (m.entries.filter fun e => !decide (e.1 < k)).length := by
      refine List.Sublist.length_le (List.monotone_filter_right m.entries fun e he => ?_)
      simpa using (of_decide_eq_true he).le
    unfold update insert
    dsimp only
    rw [List.length_append, List.length_cons]
    omega

/-- The last update of a key decides. -/
theorem find?_updates (m : SortedMap κ ν) (cs : List (κ × Option ν)) (k : κ) :
    (m.updates cs).find? k =
      match cs.reverse.find? fun c => decide (k = c.1) with
      | some c => c.2
      | none => m.find? k := by
  induction cs using List.reverseRecOn with
  | nil => rfl
  | append_singleton cs c ih =>
    unfold updates at ih ⊢
    rw [List.foldl_append, List.foldl_cons, List.foldl_nil, find?_update, List.reverse_append,
      List.reverse_singleton, List.singleton_append]
    by_cases hkey : k = c.1
    · rw [if_pos hkey, List.find?_cons_of_pos (by rw [decide_eq_true_eq]; exact hkey)]
    · rw [if_neg hkey, List.find?_cons_of_neg (by rw [decide_eq_true_eq]; exact hkey)]
      exact ih

/- Where two maps find the same, they have the same entries. -/
theorem filter_ext {m m' : SortedMap κ ν} {P : κ → Bool}
    (h : ∀ k, P k = true → m.find? k = m'.find? k) :
    (m.entries.filter fun e => P e.1) = m'.entries.filter fun e => P e.1 := by
  have hirrefl : Std.Irrefl fun a b : κ × ν => a.1 < b.1 := ⟨fun a => lt_irrefl a.1⟩
  have hantisymm : Std.Antisymm fun a b : κ × ν => a.1 < b.1 :=
    ⟨fun a b hab hba => absurd (lt_trans hab hba) (lt_irrefl a.1)⟩
  apply List.Pairwise.eq_of_mem_iff (m.sorted.filter _) (m'.sorted.filter _)
  intro e
  rw [List.mem_filter, List.mem_filter]
  apply and_congr_left
  intro hP
  rw [← find?_eq_some, ← find?_eq_some, h e.1 hP]

/- The entries behind the first one. -/
theorem filter_cons {m : SortedMap κ ν} {P : κ → Bool} {e : κ × ν} (hP : P e.1 = true)
    (hfind : m.find? e.1 = some e.2) (hupper : ∀ k, e.1 < k → P k = true)
    (hleast : ∀ k v, P k = true → m.find? k = some v → e.1 ≤ k) :
    (m.entries.filter fun e' => P e'.1) = e :: m.entries.filter fun e' => decide (e.1 < e'.1) := by
  have hirrefl : Std.Irrefl fun a b : κ × ν => a.1 < b.1 := ⟨fun a => lt_irrefl a.1⟩
  have hantisymm : Std.Antisymm fun a b : κ × ν => a.1 < b.1 :=
    ⟨fun a b hab hba => absurd (lt_trans hab hba) (lt_irrefl a.1)⟩
  apply List.Pairwise.eq_of_mem_iff (m.sorted.filter _)
  · rw [List.pairwise_cons]
    exact ⟨fun e' he' => of_decide_eq_true (List.mem_filter.mp he').2, m.sorted.filter _⟩
  · intro e'
    rw [List.mem_cons, List.mem_filter, List.mem_filter]
    constructor
    · rintro ⟨hmem, hP'⟩
      have hle := hleast e'.1 e'.2 hP' (find?_eq_some.mpr hmem)
      rcases lt_or_eq_of_le hle with hlt | heq
      · exact Or.inr ⟨hmem, decide_eq_true hlt⟩
      · exact Or.inl (key_injective m.sorted hmem (find?_eq_some.mp hfind) heq.symm)
    · rintro (rfl | ⟨hmem, hlt⟩)
      · exact ⟨find?_eq_some.mp hfind, hP⟩
      · exact ⟨hmem, hupper e'.1 (of_decide_eq_true hlt)⟩

theorem filter_nil {m : SortedMap κ ν} {P : κ → Bool} (h : ∀ k, P k = true → m.find? k = none) :
    (m.entries.filter fun e => P e.1) = [] := by
  rw [List.filter_eq_nil_iff]
  intro e he hP
  exact find?_eq_none.mp (h e.1 hP) e.2 he

end SortedMap

end PracticeApps
