import PracticeApps.Firestore.LlrbErase

/-!
# tree_sorted_map.h, llrb_node_iterator.h

The searches in a tree, and its iterator: a stack of nodes whose entry and right subtree are
still to come.
-/

namespace PracticeApps.Firestore
namespace Immutable

variable {κ ν : Type}

structure LlrbNodeIterator (κ ν : Type) where
  stack : List (LlrbNode κ ν)

namespace LlrbNodeIterator

def accumulateLeft : LlrbNode κ ν → List (LlrbNode κ ν) → List (LlrbNode κ ν)
  | .empty, stack => stack
  | .node e c s left right, stack =>
    if s = 0 then stack else accumulateLeft left (.node e c s left right :: stack)

def begin (root : LlrbNode κ ν) : LlrbNodeIterator κ ν := { stack := accumulateLeft root [] }

def endOf : LlrbNodeIterator κ ν := { stack := [] }

/- The nodes that `LowerBound` pushes. -/
def pushLowerBound [LinearOrder κ] (key : κ) :
    LlrbNode κ ν → List (LlrbNode κ ν) → List (LlrbNode κ ν)
  | .empty, stack => stack
  | .node e c s left right, stack =>
    if s = 0 then stack
    else
      match compare key e.1 with
      | .eq => .node e c s left right :: stack
      | .lt => pushLowerBound key left (.node e c s left right :: stack)
      | .gt => pushLowerBound key right stack

def lowerBound [LinearOrder κ] (root : LlrbNode κ ν) (key : κ) : LlrbNodeIterator κ ν :=
  { stack := pushLowerBound key root [] }

def isEnd (it : LlrbNodeIterator κ ν) : Bool := it.stack.isEmpty

/- `get()` and `operator++` assert that it is not the end. -/
def get (it : LlrbNodeIterator κ ν) : Option (κ × ν) := it.stack.head?.bind LlrbNode.entry

def next (it : LlrbNodeIterator κ ν) : Option (LlrbNodeIterator κ ν) :=
  match it.stack with
  | [] => none
  | n :: stack => some { stack := accumulateLeft n.right stack }

/-! ### What is still to come -/

/- A node on the stack: its left subtree has been visited. -/
def ahead : LlrbNode κ ν → List (κ × ν)
  | .empty => []
  | .node e _ _ _ right => e :: right.toList

/-- The entries an iterator has yet to visit. -/
structure Reads (it : LlrbNodeIterator κ ν) (es : List (κ × ν)) : Prop where
  nodes : ∀ n ∈ it.stack, n ≠ .empty
  sized : ∀ n ∈ it.stack, n.Sized
  entries : it.stack.flatMap ahead = es

variable {it : LlrbNodeIterator κ ν} {es : List (κ × ν)} {e : κ × ν}

theorem Reads.get_eq (h : Reads it es) : it.get = es.head? := by
  obtain ⟨stack⟩ := it
  obtain ⟨hnodes, -, rfl⟩ := h
  cases stack with
  | nil => rfl
  | cons n stack =>
    cases n with
    | empty => exact absurd rfl (hnodes .empty List.mem_cons_self)
    | node e c s left right => rfl

theorem Reads.isEnd_eq (h : Reads it es) : it.isEnd = es.isEmpty := by
  obtain ⟨stack⟩ := it
  obtain ⟨hnodes, -, rfl⟩ := h
  cases stack with
  | nil => rfl
  | cons n stack =>
    cases n with
    | empty => exact absurd rfl (hnodes .empty List.mem_cons_self)
    | node e c s left right => rfl

theorem reads_push {c : Color} {s : ℕ} {left right : LlrbNode κ ν} {stack : List (LlrbNode κ ν)}
    (h : Reads { stack := stack } es) (hsized : (LlrbNode.node e c s left right).Sized) :
    Reads { stack := .node e c s left right :: stack } (e :: right.toList ++ es) := by
  refine ⟨?_, ?_, ?_⟩
  · intro n hn
    rcases List.mem_cons.mp hn with rfl | hn
    · exact LlrbNode.node_ne_empty e c s left right
    · exact h.nodes n hn
  · intro n hn
    rcases List.mem_cons.mp hn with rfl | hn
    · exact hsized
    · exact h.sized n hn
  · simp [ahead, ← h.entries]

theorem reads_accumulateLeft {t : LlrbNode κ ν} (hsized : t.Sized) {stack : List (LlrbNode κ ν)}
    (h : Reads { stack := stack } es) :
    Reads { stack := accumulateLeft t stack } (t.toList ++ es) := by
  induction t generalizing stack es with
  | empty => exact h
  | node e c s left right ihleft ihright =>
    have hpushed := ihleft hsized.2.1 (reads_push h hsized)
    rw [accumulateLeft, if_neg hsized.ne_zero, LlrbNode.toList_node, List.append_assoc]
    exact hpushed

theorem reads_end : Reads (endOf : LlrbNodeIterator κ ν) [] :=
  ⟨by simp [endOf], by simp [endOf], rfl⟩

theorem reads_begin {t : LlrbNode κ ν} (hsized : t.Sized) : Reads (begin t) t.toList := by
  have h := reads_accumulateLeft hsized reads_end
  rw [List.append_nil] at h
  exact h

theorem Reads.next (h : Reads it (e :: es)) : ∃ it', it.next = some it' ∧ Reads it' es := by
  obtain ⟨stack⟩ := it
  obtain ⟨hnodes, hsized, hentries⟩ := h
  cases stack with
  | nil => cases hentries
  | cons n stack =>
    cases n with
    | empty => exact absurd rfl (hnodes .empty List.mem_cons_self)
    | node e' c s left right =>
      have hrest : right.toList ++ stack.flatMap ahead = es := (List.cons.inj hentries).2
      refine ⟨_, rfl, ?_⟩
      rw [← hrest]
      exact reads_accumulateLeft (hsized _ List.mem_cons_self).2.2
        ⟨fun n hn => hnodes n (List.mem_cons_of_mem _ hn),
          fun n hn => hsized n (List.mem_cons_of_mem _ hn), rfl⟩

variable [LinearOrder κ]

theorem reads_pushLowerBound (key : κ) {t : LlrbNode κ ν} {stack : List (LlrbNode κ ν)}
    (hsized : t.Sized) (hsorted : t.toList.Pairwise fun a b => a.1 < b.1)
    (h : Reads { stack := stack } es) :
    Reads { stack := pushLowerBound key t stack }
      (t.toList.filter (fun a => decide (key ≤ a.1)) ++ es) := by
  induction t generalizing stack es with
  | empty => exact h
  | node e c s left right ihleft ihright =>
    have hpushed := reads_push h hsized
    rw [LlrbNode.toList_node] at hsorted ⊢
    rw [pushLowerBound, if_neg hsized.ne_zero]
    rcases lt_trichotomy key e.1 with hlow | heq | hhigh
    · simp only [compare_lt_iff_lt.mpr hlow]
      rw [SortedMap.filter_ge_of_le hsorted hlow.le]
      simpa using ihleft hsized.2.1 (LlrbNode.pairwise_left hsorted) hpushed
    · simp only [compare_eq_iff_eq.mpr heq]
      rw [heq, SortedMap.filter_ge_self hsorted]
      exact hpushed
    · simp only [compare_gt_iff_gt.mpr hhigh]
      rw [SortedMap.filter_ge_of_lt hsorted hhigh]
      exact ihright hsized.2.2 (LlrbNode.pairwise_right hsorted) h

theorem reads_lowerBound (key : κ) {t : LlrbNode κ ν} (hsized : t.Sized)
    (hsorted : t.toList.Pairwise fun a b => a.1 < b.1) :
    Reads (lowerBound t key) (t.toList.filter fun a => decide (key ≤ a.1)) := by
  have h := reads_pushLowerBound key hsized hsorted reads_end
  rw [List.append_nil] at h
  exact h

end LlrbNodeIterator

/-! ### The map -/

structure TreeSortedMap (κ ν : Type) where
  root : LlrbNode κ ν

namespace TreeSortedMap
variable [LinearOrder κ]

def isEmpty (m : TreeSortedMap κ ν) : Bool := m.root.isEmpty

def size (m : TreeSortedMap κ ν) : ℕ := m.root.size

def insert (m : TreeSortedMap κ ν) (key : κ) (value : ν) : Option (TreeSortedMap κ ν) :=
  (m.root.insert key value).map fun root => { root := root }

def erase (m : TreeSortedMap κ ν) (key : κ) : Option (TreeSortedMap κ ν) :=
  (m.root.erase key).map fun root => { root := root }

def create (es : List (κ × ν)) : Option (TreeSortedMap κ ν) :=
  es.foldlM (fun m e => m.insert e.1 e.2) { root := .empty }

def containsFrom (key : κ) : LlrbNode κ ν → Bool
  | .empty => false
  | .node e _ s left right =>
    if s = 0 then false
    else
      match compare key e.1 with
      | .eq => true
      | .lt => containsFrom key left
      | .gt => containsFrom key right

def contains (m : TreeSortedMap κ ν) (key : κ) : Bool := containsFrom key m.root

/- `none` is `npos`. -/
def findIndexFrom (key : κ) (prunedNodes : ℕ) : LlrbNode κ ν → Option ℕ
  | .empty => none
  | .node e _ s left right =>
    if s = 0 then none
    else
      match compare key e.1 with
      | .eq => some (prunedNodes + left.size)
      | .lt => findIndexFrom key prunedNodes left
      | .gt => findIndexFrom key (prunedNodes + (left.size + 1)) right

def findIndex (m : TreeSortedMap κ ν) (key : κ) : Option ℕ := findIndexFrom key 0 m.root

def lowerBound (m : TreeSortedMap κ ν) (key : κ) : LlrbNodeIterator κ ν :=
  LlrbNodeIterator.lowerBound m.root key

def find (m : TreeSortedMap κ ν) (key : κ) : LlrbNodeIterator κ ν :=
  match (m.lowerBound key).get with
  | some e => if compare key e.1 = .eq then m.lowerBound key else LlrbNodeIterator.endOf
  | none => LlrbNodeIterator.endOf

def begin (m : TreeSortedMap κ ν) : LlrbNodeIterator κ ν := LlrbNodeIterator.begin m.root

def max (m : TreeSortedMap κ ν) : LlrbNodeIterator κ ν :=
  if m.isEmpty then LlrbNodeIterator.endOf else { stack := [m.root.max] }

/-! ### The entries of the map -/

/-- A balanced tree with the entries of a sorted map. -/
structure Holds (t : TreeSortedMap κ ν) (m : SortedMap κ ν) : Prop where
  balanced : ∃ n, LlrbNode.Balanced t.root .Black n
  few : m.entries.length < 2 ^ 31
  entries : t.root.toList = m.entries

variable {t : TreeSortedMap κ ν} {m : SortedMap κ ν}

theorem holds_empty : Holds ({ root := .empty } : TreeSortedMap κ ν) SortedMap.empty :=
  ⟨⟨0, .empty⟩, Nat.two_pow_pos 31, rfl⟩

theorem Holds.few_root (h : Holds t m) : t.root.toList.length < 2 ^ 31 := by
  rw [h.entries]
  exact h.few

theorem Holds.sized (h : Holds t m) : t.root.Sized := by
  obtain ⟨n, hn⟩ := h.balanced
  exact hn.sized h.few_root

theorem Holds.sorted (h : Holds t m) : t.root.toList.Pairwise fun a b => a.1 < b.1 := by
  rw [h.entries]
  exact m.sorted

theorem Holds.insert (h : Holds t m) (key : κ) (value : ν)
    (hfew : (m.insert key value).entries.length < 2 ^ 31) :
    ∃ t', t.insert key value = some t' ∧ Holds t' (m.insert key value) := by
  obtain ⟨n, hn⟩ := h.balanced
  obtain ⟨root, n', hinsert, hroot, hlist⟩ := LlrbNode.insert_spec key value hn h.sized h.sorted
  refine ⟨{ root := root }, ?_, ⟨⟨n', hroot⟩, hfew, ?_⟩⟩
  · unfold TreeSortedMap.insert
    rw [hinsert, Option.map_some]
  · rw [hlist, h.entries]
    rfl

theorem Holds.erase (h : Holds t m) (key : κ) :
    ∃ t', t.erase key = some t' ∧ Holds t' (m.erase key) := by
  obtain ⟨n, hn⟩ := h.balanced
  obtain ⟨root, n', herase, hroot, hlist⟩ := LlrbNode.erase_spec key hn h.few_root h.sorted
  have hless : (m.erase key).entries.length ≤ m.entries.length := List.length_filter_le _ _
  refine ⟨{ root := root }, ?_, ⟨⟨n', hroot⟩, Nat.lt_of_le_of_lt hless h.few, ?_⟩⟩
  · unfold TreeSortedMap.erase
    rw [herase, Option.map_some]
  · rw [hlist, h.entries]
    rfl

theorem Holds.size_eq (h : Holds t m) : t.size = m.entries.length := by
  rw [← h.entries]
  exact h.sized.size_eq

theorem Holds.isEmpty_eq (h : Holds t m) : t.isEmpty = m.entries.isEmpty := by
  rw [Bool.eq_iff_iff, List.isEmpty_iff_length_eq_zero, ← h.size_eq]
  exact decide_eq_true_iff

/- A search that goes the way of the key. -/
theorem containsFrom_iff (key : κ) {t : LlrbNode κ ν} (hsized : t.Sized)
    (hsorted : t.toList.Pairwise fun a b => a.1 < b.1) :
    containsFrom key t = true ↔ ∃ v, (key, v) ∈ t.toList := by
  induction t with
  | empty => simp [containsFrom]
  | node e c s left right ihleft ihright =>
    obtain ⟨hbelow, habove⟩ := SortedMap.below_above hsorted
    rw [containsFrom, if_neg hsized.ne_zero]
    rcases lt_trichotomy key e.1 with hlow | heq | hhigh
    · simp only [compare_lt_iff_lt.mpr hlow, LlrbNode.toList_node, List.mem_append, List.mem_cons]
      rw [ihleft hsized.2.1 (LlrbNode.pairwise_left hsorted)]
      constructor
      · rintro ⟨v, hv⟩
        exact ⟨v, .inl hv⟩
      · rintro ⟨v, hv | hv | hv⟩
        · exact ⟨v, hv⟩
        · rw [← hv] at hlow
          exact absurd hlow (lt_irrefl _)
        · exact absurd hlow (habove _ hv).le.not_gt
    · simp only [compare_eq_iff_eq.mpr heq, true_iff]
      exact ⟨e.2, by simp [heq]⟩
    · simp only [compare_gt_iff_gt.mpr hhigh, LlrbNode.toList_node, List.mem_append, List.mem_cons]
      rw [ihright hsized.2.2 (LlrbNode.pairwise_right hsorted)]
      constructor
      · rintro ⟨v, hv⟩
        exact ⟨v, .inr (.inr hv)⟩
      · rintro ⟨v, hv | hv | hv⟩
        · exact absurd hhigh (hbelow _ hv).le.not_gt
        · rw [← hv] at hhigh
          exact absurd hhigh (lt_irrefl _)
        · exact ⟨v, hv⟩

theorem Holds.contains_eq (h : Holds t m) (key : κ) : t.contains key = m.contains key := by
  rw [Bool.eq_iff_iff]
  unfold contains SortedMap.contains
  rw [containsFrom_iff key h.sized h.sorted, h.entries, Option.isSome_iff_exists]
  simp only [SortedMap.find?_eq_some]

theorem findIndexFrom_eq (key : κ) {t : LlrbNode κ ν} (hsized : t.Sized)
    (hsorted : t.toList.Pairwise fun a b => a.1 < b.1) (pruned : ℕ) :
    findIndexFrom key pruned t =
      (t.toList.findIdx? fun a => decide (a.1 = key)).map fun i => pruned + i := by
  induction t generalizing pruned with
  | empty => rfl
  | node e c s left right ihleft ihright =>
    obtain ⟨hbelow, habove⟩ := SortedMap.below_above hsorted
    have hsize := hsized.2.1.size_eq
    rw [LlrbNode.toList_node, List.findIdx?_append, List.findIdx?_cons, findIndexFrom,
      if_neg hsized.ne_zero]
    rcases lt_trichotomy key e.1 with hlow | heq | hhigh
    · simp only [compare_lt_iff_lt.mpr hlow]
      have hright : right.toList.findIdx? (fun a => decide (a.1 = key)) = none := by
        rw [List.findIdx?_eq_none_iff]
        intro a ha
        simpa using (hlow.trans (habove a ha)).ne'
      rw [ihleft hsized.2.1 (LlrbNode.pairwise_left hsorted), hright]
      simp [hlow.ne']
    · simp only [compare_eq_iff_eq.mpr heq]
      have hleft : left.toList.findIdx? (fun a => decide (a.1 = key)) = none := by
        rw [List.findIdx?_eq_none_iff]
        intro a ha
        simpa [heq] using (hbelow a ha).ne
      rw [hleft]
      simp [heq, hsize]
    · simp only [compare_gt_iff_gt.mpr hhigh]
      have hleft : left.toList.findIdx? (fun a => decide (a.1 = key)) = none := by
        rw [List.findIdx?_eq_none_iff]
        intro a ha
        simpa using ((hbelow a ha).trans hhigh).ne
      rw [ihright hsized.2.2 (LlrbNode.pairwise_right hsorted), hleft]
      cases right.toList.findIdx? (fun a => decide (a.1 = key)) with
      | none => simp [hhigh.ne]
      | some i =>
        simp [hhigh.ne, hsize]
        omega

theorem Holds.findIndex_eq (h : Holds t m) (key : κ) :
    t.findIndex key = m.entries.findIdx? fun a => decide (a.1 = key) := by
  unfold findIndex
  rw [findIndexFrom_eq key h.sized h.sorted, h.entries]
  simp

theorem Holds.lowerBound_reads (h : Holds t m) (key : κ) :
    (t.lowerBound key).Reads (m.lowerBound key) := by
  rw [SortedMap.lowerBound_eq, ← h.entries]
  exact LlrbNodeIterator.reads_lowerBound key h.sized h.sorted

theorem Holds.find_reads (h : Holds t m) (key : κ) :
    (t.find key).Reads (m.startingAt key) := by
  have hreads := h.lowerBound_reads key
  unfold find
  rw [hreads.get_eq, SortedMap.startingAt_eq]
  cases (m.lowerBound key).head? with
  | none => exact LlrbNodeIterator.reads_end
  | some e =>
    dsimp only [Option.map_some]
    by_cases hkey : key = e.1
    · rw [if_pos (compare_eq_iff_eq.mpr hkey), if_pos (congrArg some hkey.symm)]
      exact hreads
    · rw [if_neg (mt compare_eq_iff_eq.mp hkey), if_neg (by simpa using Ne.symm hkey)]
      exact LlrbNodeIterator.reads_end

theorem Holds.begin_reads (h : Holds t m) : t.begin.Reads m.entries := by
  rw [← h.entries]
  exact LlrbNodeIterator.reads_begin h.sized

omit [LinearOrder κ] in
theorem reads_max {t : LlrbNode κ ν} (hsized : t.Sized) (h : t ≠ .empty) :
    ({ stack := [t.max] } : LlrbNodeIterator κ ν).Reads (t.toList.getLast?.toList) := by
  induction t with
  | empty => exact absurd rfl h
  | node e c s left right ihleft ihright =>
    unfold LlrbNode.max
    cases right with
    | empty =>
      rw [if_pos LlrbNode.isEmpty_empty]
      refine ⟨by simp, ?_, by simp [LlrbNodeIterator.ahead]⟩
      exact fun n hn => List.mem_singleton.mp hn ▸ hsized
    | node re rc rs rl rr =>
      have hroot := LlrbNode.node_ne_empty re rc rs rl rr
      have hright := ihright hsized.2.2 hroot
      have hfull : ¬ (LlrbNode.node re rc rs rl rr).isEmpty = true := by
        rw [hsized.2.2.isEmpty_iff]
        exact hroot
      have hlast : (LlrbNode.node e c s left (.node re rc rs rl rr)).toList.getLast? =
          (LlrbNode.node re rc rs rl rr).toList.getLast? := by
        simp [List.getLast?_append, List.getLast?_cons]
      rw [hlast, if_neg hfull]
      exact hright

theorem Holds.max_reads (h : Holds t m) : t.max.Reads m.entries.getLast?.toList := by
  unfold max
  cases hempty : t.isEmpty with
  | true =>
    have hentries : m.entries = [] := by simpa [h.isEmpty_eq] using hempty
    rw [hentries, if_pos rfl]
    exact LlrbNodeIterator.reads_end
  | false =>
    rw [if_neg Bool.false_ne_true, ← h.entries]
    refine reads_max h.sized fun hroot => ?_
    unfold isEmpty at hempty
    rw [hroot] at hempty
    cases hempty

/-! ### Runs -/

/- A call of `insert`, or of `erase`. -/
def change (t : TreeSortedMap κ ν) (c : κ × Option ν) : Option (TreeSortedMap κ ν) :=
  match c.2 with
  | some value => t.insert c.1 value
  | none => t.erase c.1

theorem Holds.change (h : Holds t m) (c : κ × Option ν)
    (hfew : (m.update c).entries.length < 2 ^ 31) :
    ∃ t', t.change c = some t' ∧ Holds t' (m.update c) := by
  obtain ⟨key, value⟩ := c
  cases value with
  | some value => exact h.insert key value hfew
  | none => exact h.erase key

/- A call adds at most one entry. -/
theorem run_holds (h : Holds t m) {cs : List (κ × Option ν)}
    (hfew : m.entries.length + cs.length < 2 ^ 31) :
    ∃ t', cs.foldlM TreeSortedMap.change t = some t' ∧ Holds t' (m.updates cs) := by
  induction cs generalizing t m with
  | nil => exact ⟨t, rfl, h⟩
  | cons c cs ih =>
    have hone := m.length_update_le c
    rw [List.length_cons] at hfew
    obtain ⟨t', hchange, ht'⟩ := h.change c (by omega)
    obtain ⟨t'', hrest, ht''⟩ := ih ht' (by omega)
    refine ⟨t'', ?_, ht''⟩
    rw [List.foldlM_cons, hchange]
    exact hrest

/-- Every run of fewer than 2^31 insertions and removals leaves a balanced tree of the entries of
its calls, in which every node knows its size: it never rotates or recolours the empty node, and
no search takes more steps than twice the logarithm of the size. -/
theorem every_tree_balanced (cs : List (κ × Option ν)) (hfew : cs.length < 2 ^ 31) :
    ∃ t, cs.foldlM TreeSortedMap.change ({ root := .empty } : TreeSortedMap κ ν) = some t ∧
      t.root.toList = (SortedMap.empty.updates cs).entries ∧
      (∃ n, LlrbNode.Balanced t.root .Black n) ∧ t.root.Sized ∧
      t.root.height ≤ 2 * Nat.log 2 (t.size + 1) := by
  have hnone : (SortedMap.empty : SortedMap κ ν).entries.length + cs.length < 2 ^ 31 :=
    lt_of_eq_of_lt (Nat.zero_add _) hfew
  obtain ⟨t, hrun, ht⟩ := run_holds holds_empty hnone
  obtain ⟨n, hn⟩ := ht.balanced
  refine ⟨t, hrun, ht.entries, ⟨n, hn⟩, ht.sized, ?_⟩
  rw [ht.size_eq, ← ht.entries]
  exact hn.height_le_log

theorem three_keys_balanced : ∃ t : TreeSortedMap ℕ ℕ,
    [(2, some 20), (1, some 10), (3, some 30), (2, none)].foldlM change { root := .empty } = some t ∧
      t.root.toList = [(1, 10), (3, 30)] ∧ t.root.Sized ∧
      ∃ n, LlrbNode.Balanced t.root .Black n := by
  obtain ⟨t, hrun, hlist, hbalanced, hsized, -⟩ :=
    every_tree_balanced [(2, some 20), (1, some 10), (3, some 30), (2, none)] (by decide)
  exact ⟨t, hrun, hlist, hsized, hbalanced⟩

end TreeSortedMap

end Immutable
end PracticeApps.Firestore
