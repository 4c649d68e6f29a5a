import PracticeApps.Library.SortedMap

/-!
# array_sorted_map.h

Sorted arrays of a fixed capacity. No insertion into one with room left overflows it.
-/

namespace PracticeApps.Firestore
namespace Immutable

variable {κ ν : Type}

def kFixedSize : ℕ := 25

/- `HARD_ASSERT(new_size <= kFixedSize)` -/
def FixedArray.append (array values : List (κ × ν)) : Option (List (κ × ν)) :=
  if array.length + values.length ≤ kFixedSize then some (array ++ values) else none

structure ArraySortedMap (κ ν : Type) where
  array : List (κ × ν)

namespace ArraySortedMap
variable [LinearOrder κ]

def size (m : ArraySortedMap κ ν) : ℕ := m.array.length

def isEmpty (m : ArraySortedMap κ ν) : Bool := decide (m.size = 0)

/- `std::lower_bound` -/
def lowerBound (m : ArraySortedMap κ ν) (key : κ) : ℕ :=
  m.array.findIdx fun el => !decide (compare el.1 key = .lt)

/- `std::find_if` -/
def find (m : ArraySortedMap κ ν) (key : κ) : ℕ :=
  m.array.findIdx fun kv => decide (compare key kv.1 = .eq)

def insert [DecidableEq ν] (m : ArraySortedMap κ ν) (key : κ) (value : ν) :
    Option (ArraySortedMap κ ν) :=
  let pos := m.lowerBound key
  let replacing := match m.array[pos]? with
    | some e => decide (compare key e.1 = .eq)
    | none => false
  if replacing && decide (m.array[pos]?.map Prod.snd = some value) then some m
  else do
    let copy ← FixedArray.append [] (m.array.take pos)
    let copy ← FixedArray.append copy [(key, value)]
    let copy ← FixedArray.append copy (m.array.drop (if replacing then pos + 1 else pos))
    some { array := copy }

def erase (m : ArraySortedMap κ ν) (key : κ) : Option (ArraySortedMap κ ν) :=
  let pos := m.find key
  if pos = m.array.length then some m
  else if m.size ≤ 1 then some { array := [] }
  else do
    let copy ← FixedArray.append [] (m.array.take pos)
    let copy ← FixedArray.append copy (m.array.drop (pos + 1))
    some { array := copy }

def contains (m : ArraySortedMap κ ν) (key : κ) : Bool := decide (m.find key ≠ m.array.length)

/- `none` is `npos`. -/
def findIndex (m : ArraySortedMap κ ν) (key : κ) : Option ℕ :=
  if m.find key = m.array.length then none else some (m.find key)

/- `end() - 1`, when there is one. -/
def max (m : ArraySortedMap κ ν) : ℕ := if m.isEmpty then m.array.length else m.array.length - 1

/-! ### The entries of the array -/

structure Holds (a : ArraySortedMap κ ν) (m : SortedMap κ ν) : Prop where
  entries : a.array = m.entries
  small : a.array.length ≤ kFixedSize

variable {a : ArraySortedMap κ ν} {m : SortedMap κ ν}

theorem holds_empty : Holds ({ array := [] } : ArraySortedMap κ ν) SortedMap.empty :=
  ⟨rfl, Nat.zero_le _⟩

theorem Holds.take_lowerBound (h : Holds a m) (key : κ) :
    a.array.take (a.lowerBound key) = m.entries.filter fun e => decide (e.1 < key) := by
  unfold lowerBound
  rw [h.entries, ← SortedMap.takeWhile_lt m.sorted, List.takeWhile_eq_take_findIdx_not]
  simp only [compare_lt_iff_lt]

theorem Holds.drop_lowerBound (h : Holds a m) (key : κ) :
    a.array.drop (a.lowerBound key) = m.entries.filter fun e => decide (key ≤ e.1) := by
  unfold lowerBound
  rw [h.entries, ← SortedMap.dropWhile_lt m.sorted, List.dropWhile_eq_drop_findIdx_not]
  simp only [compare_lt_iff_lt]

omit [LinearOrder κ] in
theorem append_three {xs ys : List (κ × ν)} (e : κ × ν)
    (h : xs.length + ys.length < kFixedSize) :
    (do
      let copy ← FixedArray.append [] xs
      let copy ← FixedArray.append copy [e]
      let copy ← FixedArray.append copy ys
      some ({ array := copy } : ArraySortedMap κ ν)) = some { array := xs ++ e :: ys } := by
  have hfirst : xs.length ≤ kFixedSize := by omega
  have hsecond : xs.length + 1 ≤ kFixedSize := by omega
  have hthird : xs.length + 1 + ys.length ≤ kFixedSize := by omega
  simp only [FixedArray.append, List.length_nil, List.length_singleton, List.length_append,
    Nat.zero_add, hfirst, hsecond, hthird, if_true, List.nil_append, List.append_assoc,
    List.singleton_append, Option.bind_eq_bind, Option.bind_some]

/- What is above a key, in what is not below it. -/
theorem Holds.filter_gt (h : Holds a m) (key : κ) :
    (m.entries.filter fun e => decide (key < e.1)) =
      (a.array.drop (a.lowerBound key)).filter fun e => decide (key < e.1) := by
  rw [h.drop_lowerBound, List.filter_filter]
  congr 1
  funext e
  by_cases hkey : key < e.1 <;> simp [hkey]
  exact hkey.le

/- The array with the new entry between those below and those above. -/
theorem Holds.inserted (h : Holds a m) (key : κ) (value : ν) {rest : List (κ × ν)}
    (hrest : (m.entries.filter fun e => decide (key < e.1)) = rest)
    (hsmall : (a.array.take (a.lowerBound key)).length + 1 + rest.length ≤ kFixedSize) :
    Holds { array := a.array.take (a.lowerBound key) ++ (key, value) :: rest }
      (m.insert key value) := by
  constructor
  · rw [h.take_lowerBound, ← hrest]
    rfl
  · simp only [List.length_append, List.length_cons]
    omega

theorem Holds.insert [DecidableEq ν] (h : Holds a m) (hroom : a.array.length < kFixedSize)
    (key : κ) (value : ν) :
    ∃ a', a.insert key value = some a' ∧ Holds a' (m.insert key value) := by
  have hdrop := h.drop_lowerBound key
  have habove := h.filter_gt key
  have hsplit := List.take_append_drop (a.lowerBound key) a.array
  have hlength := congrArg List.length hsplit
  have hhead := List.head?_drop (l := a.array) (i := a.lowerBound key)
  have htail := List.tail_drop (l := a.array) (i := a.lowerBound key)
  rw [List.length_append] at hlength
  unfold ArraySortedMap.insert
  dsimp only
  cases hrest : a.array.drop (a.lowerBound key) with
  | nil =>
    rw [hrest] at hhead habove hlength
    simp only [← hhead, List.head?_nil, Bool.false_and, Bool.false_eq_true, if_false, hrest]
    rw [append_three _ (by simp only [List.length_nil] at hlength ⊢; omega)]
    exact ⟨_, rfl, h.inserted key value habove (by simp only [List.length_nil] at hlength ⊢; omega)⟩
  | cons e rest =>
    have hsorted : (e :: rest).Pairwise fun a b => a.1 < b.1 := by
      rw [← hrest, hdrop]
      exact m.sorted.filter _
    have hle : key ≤ e.1 := by
      have hmem : e ∈ m.entries.filter fun e => decide (key ≤ e.1) := by
        rw [← hdrop, hrest]
        exact List.mem_cons_self
      exact of_decide_eq_true (List.mem_filter.mp hmem).2
    rw [hrest] at hhead habove hlength htail
    rw [List.length_cons] at hlength
    rw [List.tail_cons] at htail
    rcases hle.eq_or_lt with rfl | hlt
    · rw [← SortedMap.tail_eq_filter hsorted] at habove
      have hcompare : compare e.1 e.1 = .eq := compare_eq_iff_eq.mpr rfl
      simp only [← hhead, List.head?_cons, hcompare, decide_true, Bool.true_and, if_true,
        Option.map_some, Option.some.injEq, decide_eq_true_eq, ← htail]
      by_cases hvalue : e.2 = value
      · rw [if_pos hvalue]
        subst hvalue
        have hsame := h.inserted e.1 e.2 habove (by omega)
        rw [← hrest, hsplit] at hsame
        exact ⟨a, rfl, hsame⟩
      · rw [if_neg hvalue, append_three _ (by omega)]
        exact ⟨_, rfl, h.inserted e.1 value habove (by omega)⟩
    · have hcompare : compare key e.1 ≠ .eq := fun h => hlt.ne (compare_eq_iff_eq.mp h)
      have hall : (m.entries.filter fun e => decide (key < e.1)) = e :: rest :=
        habove.trans (SortedMap.filter_gt_of_lt (l := []) hsorted hlt)
      simp only [← hhead, List.head?_cons, hcompare, decide_false, Bool.false_and,
        Bool.false_eq_true, if_false, hrest]
      rw [append_three _ (by simp only [List.length_cons]; omega)]
      exact ⟨_, rfl, h.inserted key value hall (by simp only [List.length_cons]; omega)⟩

theorem find_eq (a : ArraySortedMap κ ν) (key : κ) :
    a.find key = a.array.findIdx fun e => decide (e.1 = key) := by
  unfold find
  congr 1
  funext e
  rw [decide_eq_decide, compare_eq_iff_eq]
  exact eq_comm

theorem find_eq_length (a : ArraySortedMap κ ν) (key : κ) :
    a.find key = a.array.length ↔ ∀ e ∈ a.array, e.1 ≠ key := by
  rw [find_eq, List.findIdx_eq_length]
  simp only [decide_eq_false_iff_not, ne_eq]

theorem Holds.drop_find (h : Holds a m) (key : κ) :
    a.array.drop (a.find key) = m.startingAt key := by
  unfold SortedMap.startingAt
  rw [find_eq, h.entries, List.dropWhile_eq_drop_findIdx_not]
  simp only [Bool.not_not]

/- The entry that `find` points to, between those in front and those behind. -/
theorem find_split {key : κ} (hfound : a.find key ≠ a.array.length) :
    ∃ e, a.array[a.find key]? = some e ∧ e.1 = key ∧
      a.array = a.array.take (a.find key) ++ e :: a.array.drop (a.find key + 1) := by
  have hlt : a.find key < a.array.length := lt_of_le_of_ne List.findIdx_le_length hfound
  refine ⟨a.array[a.find key], List.getElem?_eq_getElem hlt, ?_, ?_⟩
  · have hsame := of_decide_eq_true (List.findIdx_getElem (w := hlt))
    exact (compare_eq_iff_eq.mp hsame).symm
  · rw [← List.drop_eq_getElem_cons hlt, List.take_append_drop]

theorem Holds.erase (h : Holds a m) (key : κ) :
    ∃ a', a.erase key = some a' ∧ Holds a' (m.erase key) := by
  have hsmall := h.small
  unfold ArraySortedMap.erase
  dsimp only
  by_cases hfound : a.find key = a.array.length
  · rw [if_pos hfound]
    refine ⟨a, rfl, ?_, hsmall⟩
    rw [h.entries]
    symm
    apply List.filter_eq_self.mpr
    intro e he
    rw [← h.entries] at he
    simpa using (find_eq_length a key).mp hfound e he
  · obtain ⟨e, -, hkey, hsplit⟩ := find_split hfound
    have hlength := congrArg List.length hsplit
    rw [List.length_append, List.length_cons] at hlength
    -- what is left of the array
    have hholds : Holds { array := a.array.take (a.find key) ++ a.array.drop (a.find key + 1) }
        (m.erase key) := by
      constructor
      · have hsorted := m.sorted
        rw [← h.entries, hsplit] at hsorted
        show _ = m.entries.filter fun e => decide (e.1 ≠ key)
        conv_rhs => rw [← h.entries, hsplit]
        rw [List.filter_append, SortedMap.filter_ne_of_ge hsorted hkey.le,
          List.filter_cons_of_neg (by simp [hkey]), SortedMap.filter_ne_of_le hsorted hkey.ge]
      · rw [List.length_append]
        omega
    rw [if_neg hfound]
    by_cases hlast : a.size ≤ 1
    · rw [if_pos hlast]
      unfold size at hlast
      have htake : a.array.take (a.find key) = [] := List.eq_nil_of_length_eq_zero (by omega)
      have hdrop : a.array.drop (a.find key + 1) = [] := List.eq_nil_of_length_eq_zero (by omega)
      rw [htake, hdrop] at hholds
      exact ⟨_, rfl, hholds⟩
    · rw [if_neg hlast]
      have hfirst : (a.array.take (a.find key)).length ≤ kFixedSize := by omega
      have hsecond : (a.array.take (a.find key)).length +
          (a.array.drop (a.find key + 1)).length ≤ kFixedSize := by omega
      refine ⟨_, ?_, hholds⟩
      simp only [FixedArray.append, List.length_nil, Nat.zero_add, hfirst, hsecond, if_true,
        List.nil_append, Option.bind_eq_bind, Option.bind_some]

theorem Holds.contains_eq (h : Holds a m) (key : κ) : a.contains key = m.contains key := by
  unfold contains SortedMap.contains
  rw [Bool.eq_iff_iff, decide_eq_true_eq, ne_eq, find_eq_length, Option.isSome_iff_exists]
  simp only [SortedMap.find?_eq_some, h.entries]
  constructor
  · intro hnot
    obtain ⟨e, he, hkey⟩ : ∃ e ∈ m.entries, e.1 = key := by
      by_contra hnone
      exact hnot fun e he hkey => hnone ⟨e, he, hkey⟩
    exact ⟨e.2, by rw [← hkey]; exact he⟩
  · rintro ⟨v, hv⟩ hall
    exact hall _ hv rfl

theorem Holds.findIndex_eq (h : Holds a m) (key : κ) :
    a.findIndex key = m.entries.findIdx? fun e => decide (e.1 = key) := by
  unfold findIndex
  rw [find_eq, ← h.entries]
  cases hfind : a.array.findIdx? fun e => decide (e.1 = key) with
  | none => rw [if_pos (List.findIdx?_eq_none_iff_findIdx_eq.mp hfind)]
  | some i =>
    obtain ⟨hlt, rfl⟩ := List.findIdx?_eq_some_iff_findIdx_eq.mp hfind
    rw [if_neg hlt.ne]

end ArraySortedMap

end Immutable
end PracticeApps.Firestore
