import PracticeApps.LevelDB.SkipList
import Mathlib.Data.List.Nodup
import Mathlib.Data.List.Range

/-!
# Iterating a skip list

The iterator of skiplist.h, and what the list amounts to: the keys in order.
-/

namespace PracticeApps.LevelDB

namespace SkipList
variable {Key : Type} (compare : Key → Key → Ordering)

/-! ### The iterator; its node or `none`, if it is not valid -/

def seekToFirst (l : SkipList Key) : Option (Option ℕ) := l.next .head 0

def seek (l : SkipList Key) (target : Key) : Option (Option ℕ) :=
  (l.findGreaterOrEqual compare target).map Prod.fst

def Place.toNode : Place → Option ℕ
  | .head => none
  | .node i => some i

def seekToLast (l : SkipList Key) : Option (Option ℕ) := l.findLast.map Place.toNode

def iteratorNext (l : SkipList Key) (i : ℕ) : Option (Option ℕ) := l.next (.node i) 0

def iteratorPrev (l : SkipList Key) (i : ℕ) : Option (Option ℕ) :=
  (l.key? i).bind fun key => (l.findLessThan compare key).map Place.toNode

/- The nodes from an iterator on. -/
def walk (l : SkipList Key) : ℕ → Option ℕ → Option (List ℕ)
  | _, none => some []
  | 0, some _ => none
  | n + 1, some i => do
    let next ← l.iteratorNext i
    let rest ← walk l n next
    pure (i :: rest)

def nodesInOrder (l : SkipList Key) : Option (List ℕ) :=
  l.seekToFirst.bind (l.walk l.nodes.length)

/- Inserts keys, each with the height that was drawn for it. -/
def insertAll (l : SkipList Key) : List (Key × ℕ) → Option (SkipList Key)
  | [] => some l
  | (key, height) :: inserts => do
    let l ← l.insert compare key height
    insertAll l inserts

variable {compare} {l : SkipList Key}

theorem insertAll_spec [Std.TransCmp compare] (h : l.Sorted compare) {inserts : List (Key × ℕ)}
    (hheights : ∀ p ∈ inserts, 1 ≤ p.2 ∧ p.2 ≤ kMaxHeight)
    (hdistinct : (l.keys ++ inserts.map Prod.fst).Pairwise fun a b => compare a b ≠ .eq) :
    ∃ l', l.insertAll compare inserts = some l' ∧ l'.Sorted compare ∧
      l'.keys = l.keys ++ inserts.map Prod.fst := by
  induction inserts generalizing l with
  | nil => exact ⟨l, rfl, h, (List.append_nil _).symm⟩
  | cons p inserts ih =>
    obtain ⟨key, height⟩ := p
    obtain ⟨hpos, hle⟩ := hheights (key, height) List.mem_cons_self
    have hfresh : ∀ a ∈ l.keys, compare a key ≠ .eq := fun a ha =>
      (List.pairwise_append.mp hdistinct).2.2 a ha key List.mem_cons_self
    obtain ⟨l₁, hinsert, hsorted, hkeys⟩ := insert_spec h hpos hle hfresh
    obtain ⟨l', hrest, hsorted', hkeys'⟩ := ih hsorted
      (fun q hq => hheights q (List.mem_cons_of_mem _ hq))
      (by rw [hkeys, List.append_assoc]; exact hdistinct)
    refine ⟨l', ?_, hsorted', ?_⟩
    · rw [insertAll, hinsert]
      exact hrest
    · rw [hkeys', hkeys, List.append_assoc]
      rfl

section Walk
variable [Std.TransCmp compare]

theorem walk_spec (h : l.Sorted compare) (n : ℕ) {x : Place} {r : Option ℕ}
    (hnext : l.IsNext compare x 0 r) (hn : (l.behind compare x).card ≤ n) :
    ∃ is, l.walk n r = some is ∧
      is.Pairwise (fun i j => l.Before compare (.node i) j) ∧
      ∀ k, k ∈ is ↔ k < l.nodes.length ∧ l.Before compare x k := by
  have hhigh : ∀ k, k < l.nodes.length ↔ 0 < l.height (.node k) := fun k =>
    ⟨h.height_pos k, lt_of_height⟩
  induction n generalizing x r with
  | zero =>
    have hempty := Finset.card_eq_zero.mp (Nat.le_zero.mp hn)
    cases r with
    | none =>
      refine ⟨[], rfl, List.Pairwise.nil, fun k => ?_⟩
      rw [← mem_behind, hempty]
      exact ⟨fun hk => absurd hk List.not_mem_nil, fun hk => absurd hk (Finset.notMem_empty k)⟩
    | some j =>
      have hmem := mem_behind.mpr ⟨lt_of_height hnext.1, hnext.2.1⟩
      rw [hempty] at hmem
      exact absurd hmem (Finset.notMem_empty j)
  | succ n ih =>
    cases r with
    | none =>
      refine ⟨[], rfl, List.Pairwise.nil, fun k => ?_⟩
      exact ⟨fun hk => absurd hk List.not_mem_nil,
        fun hk => absurd hk.2 (hnext k ((hhigh k).mp hk.1))⟩
    | some j =>
      obtain ⟨hjhigh, hbefore, hfirst⟩ := hnext
      obtain ⟨r', hr'⟩ := next_isSome hjhigh
      have hfewer := behind_card_lt (lt_of_height hjhigh) hbefore
      obtain ⟨is, hwalk, hpairwise, hmem⟩ := ih (h.points _ 0 r' hr') (by omega)
      refine ⟨j :: is, ?_, ?_, ?_⟩
      · rw [walk, iteratorNext, hr', Option.bind_eq_bind, Option.bind_some, hwalk]
        rfl
      · exact List.pairwise_cons.mpr ⟨fun k hk => ((hmem k).mp hk).2, hpairwise⟩
      · intro k
        rw [List.mem_cons, hmem]
        constructor
        · rintro (rfl | ⟨hk, hjk⟩)
          · exact ⟨lt_of_height hjhigh, hbefore⟩
          · exact ⟨hk, before_trans hbefore hjk⟩
        · rintro ⟨hk, hxk⟩
          by_cases hsame : k = j
          · exact Or.inl hsame
          · rcases h.total hk (lt_of_height hjhigh) hsame with hkj | hjk
            · exact absurd hkj (hfirst k ((hhigh k).mp hk) hxk)
            · exact Or.inr ⟨hk, hjk⟩

/-- The iterator visits every node once, in the order of the keys. -/
theorem nodesInOrder_spec (h : l.Sorted compare) :
    ∃ is, l.nodesInOrder = some is ∧
      is.Pairwise (fun i j => l.Before compare (.node i) j) ∧
      is.Perm (List.range l.nodes.length) := by
  have hhead : l.height .head = kMaxHeight := h.head
  have hzero : 0 < l.height .head := by
    rw [hhead]
    exact Nat.succ_pos _
  obtain ⟨r, hr⟩ := next_isSome hzero
  obtain ⟨is, hwalk, hpairwise, hmem⟩ := walk_spec h l.nodes.length (h.points _ 0 r hr)
    (behind_card_le _)
  refine ⟨is, ?_, hpairwise, ?_⟩
  · rw [nodesInOrder, seekToFirst, hr]
    exact hwalk
  · apply (List.perm_ext_iff_of_nodup ?_ List.nodup_range).mpr
    · intro k
      rw [hmem, List.mem_range]
      exact ⟨And.left, fun hk => ⟨hk, trivial⟩⟩
    · apply hpairwise.imp
      rintro i j hij rfl
      exact not_before_self i hij

end Walk

/-! ### A sorted list -/

/- The first one in order of those with a property. -/
theorem find?_of_first {R : Key → Key → Prop} {p : Key → Bool} {ks : List Key} {b : Key}
    (hks : ks.Pairwise R) (hb : b ∈ ks) (hpb : p b = true)
    (hfirst : ∀ a ∈ ks, p a = true → ¬ R a b) : ks.find? p = some b := by
  induction ks with
  | nil => exact absurd hb List.not_mem_nil
  | cons k ks ih =>
    obtain ⟨hk, hrest⟩ := List.pairwise_cons.mp hks
    by_cases hpk : p k = true
    · rcases List.mem_cons.mp hb with rfl | hb
      · exact List.find?_cons_of_pos hpk
      · exact absurd (hk b hb) (hfirst k List.mem_cons_self hpk)
    · rw [List.find?_cons_of_neg hpk]
      rcases List.mem_cons.mp hb with rfl | hb
      · exact absurd hpb hpk
      · exact ih hrest hb fun a ha => hfirst a (List.mem_cons_of_mem _ ha)

/-- The list of keys that a skip list stands for. -/
structure Represents (compare : Key → Key → Ordering) (l : SkipList Key) (ks : List Key) :
    Prop where
  sorted : l.Sorted compare
  perm : ks.Perm l.keys
  pairwise : ks.Pairwise fun a b => compare a b = .lt
  visits : ∃ is, l.nodesInOrder = some is ∧ is.map l.key? = ks.map some

theorem mem_iff_key? {ks : List Key} (h : l.Represents compare ks) {a : Key} :
    a ∈ ks ↔ ∃ i, l.key? i = some a := by
  rw [h.perm.mem_iff, List.mem_iff_getElem?]
  simp only [key?_eq]

/- The last node that a search goes past, among the keys. -/
theorem last_key {ks : List Key} (h : l.Represents compare ks) {stay : ℕ → Bool}
    {p : Key → Bool} {x : Place} (hlast : Last compare l stay 0 x)
    (hstay : ∀ i a, l.key? i = some a → (stay i = true ↔ p a = true)) :
    (Place.toNode x).bind l.key? = ks.reverse.find? p := by
  have hnotBefore : ∀ k a, l.key? k = some a → p a = true → ¬ l.Before compare x k := by
    intro k a ha hpa
    exact hlast.last k (h.sorted.height_pos k (lt_of_key? ha)) ((hstay k a ha).mpr hpa)
  cases x with
  | head =>
    symm
    show _ = none
    rw [List.find?_eq_none]
    intro k hk hpk
    obtain ⟨i, hi⟩ := (mem_iff_key? h).mp (List.mem_reverse.mp hk)
    exact hnotBefore i k hi hpk trivial
  | node i =>
    obtain ⟨b, hb⟩ := key?_isSome (lt_of_height hlast.high)
    show l.key? i = _
    rw [hb]
    symm
    apply find?_of_first (List.pairwise_reverse.mpr h.pairwise)
    · exact List.mem_reverse.mpr ((mem_iff_key? h).mpr ⟨i, hb⟩)
    · exact (hstay i b hb).mp hlast.passed
    · intro a ha hpa hba
      obtain ⟨k, hk⟩ := (mem_iff_key? h).mp (List.mem_reverse.mp ha)
      exact hnotBefore k a hk hpa ⟨b, hb, a, hk, hba⟩

section Refinement
variable [Std.TransCmp compare]

/- The node in front of which a search ends. -/
theorem findLessThan_spec (h : l.Sorted compare) (key : Key) :
    ∃ x, l.findLessThan compare key = some x ∧
      Last compare l (l.keyIsAfterNode compare key) 0 x := by
  obtain ⟨r, x₀, ps, hsearch, -, -, hlasts⟩ := search_head h (firstOnes_key key)
  refine ⟨x₀, ?_, hlasts 0 x₀ rfl⟩
  rw [findLessThan, hsearch]
  rfl

theorem findLast_spec (h : l.Sorted compare) :
    ∃ x, l.findLast = some x ∧ Last compare l (fun _ => true) 0 x := by
  have hall : l.FirstOnes compare fun _ => true := fun _ _ _ _ _ => rfl
  obtain ⟨r, x₀, ps, hsearch, -, -, hlasts⟩ := search_head h hall
  refine ⟨x₀, ?_, hlasts 0 x₀ rfl⟩
  rw [findLast, hsearch]
  rfl

theorem represents_of_sorted (h : l.Sorted compare) : ∃ ks, l.Represents compare ks := by
  obtain ⟨is, hvisits, hpairwise, hperm⟩ := nodesInOrder_spec h
  have hin : ∀ i ∈ is, ∃ a, l.key? i = some a := fun i hi =>
    key?_isSome (List.mem_range.mp (hperm.mem_iff.mp hi))
  have hkeys : is.map l.key? = (is.filterMap l.key?).map some := by
    clear hvisits hpairwise hperm
    induction is with
    | nil => rfl
    | cons i is ih =>
      obtain ⟨a, ha⟩ := hin i List.mem_cons_self
      rw [List.map_cons, List.filterMap_cons_some ha, List.map_cons, ha,
        ih fun j hj => hin j (List.mem_cons_of_mem _ hj)]
  refine ⟨is.filterMap l.key?, h, ?_, ?_, is, hvisits, hkeys⟩
  · have hall : (List.range l.nodes.length).filterMap l.key? = l.keys := by
      apply List.ext_getElem?
      intro i
      rw [← length_keys]
      have hrange : (List.range l.keys.length).map l.key? = l.keys.map some := by
        apply List.ext_getElem?
        intro j
        rw [List.getElem?_map, List.getElem?_map]
        by_cases hj : j < l.keys.length
        · rw [List.getElem?_range hj, List.getElem?_eq_getElem hj, Option.map_some,
            Option.map_some, key?_eq, List.getElem?_eq_getElem hj]
        · rw [List.getElem?_eq_none (by rw [List.length_range]; omega),
            List.getElem?_eq_none (by omega)]
          rfl
      have hfilter : (List.range l.keys.length).filterMap l.key? =
          ((List.range l.keys.length).map l.key?).filterMap id := by
        rw [List.filterMap_map]
        rfl
      rw [hfilter, hrange, List.filterMap_map]
      exact congrArg (fun ks => ks[i]?) (List.filterMap_some)
    rw [← hall]
    exact hperm.filterMap _
  · rw [List.pairwise_filterMap]
    apply hpairwise.imp
    rintro i j ⟨a, ha, b, hb, hab⟩ a' ha' b' hb'
    rw [Option.mem_unique ha' ha, Option.mem_unique hb' hb]
    exact hab

variable {ks : List Key}

/-- Seeking finds the first key that is not below the target. -/
theorem seek_spec (h : l.Represents compare ks) (target : Key) :
    (l.seek compare target).map (fun r => r.bind l.key?) =
      some (ks.find? fun k => compare k target != .lt) := by
  obtain ⟨r, prev, hfound, -, -, hr⟩ := findGreaterOrEqual_spec h.sorted target
  rw [seek, hfound, Option.map_some, Option.map_some]
  cases r with
  | none =>
    symm
    rw [Option.bind_none, Option.some_inj, List.find?_eq_none]
    intro k hk
    obtain ⟨i, hi⟩ := (mem_iff_key? h).mp hk
    rw [hr i k hi]
    decide
  | some j =>
    obtain ⟨b, hb, hge, hfirst⟩ := hr
    rw [Option.bind_some, hb]
    symm
    rw [Option.some_inj]
    apply find?_of_first h.pairwise ((mem_iff_key? h).mpr ⟨j, hb⟩)
    · exact bne_iff_ne.mpr hge
    · intro a ha hpa
      obtain ⟨i, hi⟩ := (mem_iff_key? h).mp ha
      exact hfirst i a hi (bne_iff_ne.mp hpa)

/-- `FindLessThan` ends at the last key below the target. -/
theorem findLessThan_key (h : l.Represents compare ks) (target : Key) :
    (l.findLessThan compare target).map (fun x => (Place.toNode x).bind l.key?) =
      some (ks.reverse.find? fun k => compare k target == .lt) := by
  obtain ⟨x, hx, hlast⟩ := findLessThan_spec h.sorted target
  rw [hx, Option.map_some]
  apply congrArg some
  apply last_key h hlast
  intro i a ha
  rw [keyIsAfterNode_iff]
  constructor
  · rintro ⟨b, hb, hlt⟩
    rw [Option.mem_unique ha hb]
    exact beq_iff_eq.mpr hlt
  · intro hlt
    exact ⟨a, ha, beq_iff_eq.mp hlt⟩

/-- `Prev` goes to the last key in front of the one it comes from. -/
theorem iteratorPrev_key (h : l.Represents compare ks) {i : ℕ} {a : Key} (hi : l.key? i = some a) :
    (l.iteratorPrev compare i).map (fun r => r.bind l.key?) =
      some (ks.reverse.find? fun k => compare k a == .lt) := by
  unfold iteratorPrev
  rw [hi, Option.bind_some, Option.map_map]
  exact findLessThan_key h a

theorem seekToLast_key (h : l.Represents compare ks) :
    l.seekToLast.map (fun r => r.bind l.key?) = some ks.getLast? := by
  obtain ⟨x, hx, hlast⟩ := findLast_spec h.sorted
  rw [seekToLast, hx, Option.map_some, Option.map_some]
  apply congrArg some
  rw [last_key h hlast (p := fun _ => true) (fun _ _ _ => Iff.rfl), ← List.head?_reverse]
  cases ks.reverse <;> rfl

/-- `Contains`: a key that compares equal. -/
theorem contains_key (h : l.Represents compare ks) (target : Key) :
    l.contains compare target = some (ks.any fun k => compare target k == .eq) := by
  obtain ⟨r, prev, hfound, -, -, hr⟩ := findGreaterOrEqual_spec h.sorted target
  rw [contains, hfound, Option.map_some]
  apply congrArg some
  rw [Bool.eq_iff_iff, Option.any_eq_true, List.any_eq_true]
  constructor
  · rintro ⟨b, hb, hequal⟩
    obtain ⟨j, -, hj⟩ := Option.bind_eq_some_iff.mp hb
    exact ⟨b, (mem_iff_key? h).mpr ⟨j, hj⟩, hequal⟩
  · rintro ⟨k, hk, hequal⟩
    have hsame := beq_iff_eq.mp hequal
    have hsame' := Std.OrientedCmp.eq_symm hsame
    obtain ⟨i, hi⟩ := (mem_iff_key? h).mp hk
    cases r with
    | none =>
      have hlt := hr i k hi
      rw [hsame'] at hlt
      cases hlt
    | some j =>
      obtain ⟨b, hb, hge, hfirst⟩ := hr
      refine ⟨b, hb, beq_iff_eq.mpr ?_⟩
      -- Nothing that is not below the target is below the node that was found.
      have hnot := hfirst i k hi (by rw [hsame']; decide)
      rw [Std.TransCmp.congr_left hsame'] at hnot
      cases hcmp : compare target b with
      | lt => exact absurd hcmp hnot
      | eq => rfl
      | gt => exact absurd (Std.OrientedCmp.lt_of_gt hcmp) hge

/-- Whatever the heights that are drawn: after any insertions of different keys the skip list
is a sorted list of them, for the iterator and for the searches. -/
theorem skip_list_is_sorted_list (inserts : List (Key × ℕ))
    (hheights : ∀ p ∈ inserts, 1 ≤ p.2 ∧ p.2 ≤ kMaxHeight)
    (hdistinct : (inserts.map Prod.fst).Pairwise fun a b => compare a b ≠ .eq) :
    ∃ (l : SkipList Key) (is : List ℕ) (ks : List Key),
      empty.insertAll compare inserts = some l ∧
      ks.Perm (inserts.map Prod.fst) ∧ ks.Pairwise (fun a b => compare a b = .lt) ∧
      l.nodesInOrder = some is ∧ is.map l.key? = ks.map some ∧
      l.seekToLast.map (fun r => r.bind l.key?) = some ks.getLast? ∧
      ∀ target,
        (l.seek compare target).map (fun r => r.bind l.key?) =
          some (ks.find? fun k => compare k target != .lt) ∧
        (l.findLessThan compare target).map (fun x => (Place.toNode x).bind l.key?) =
          some (ks.reverse.find? fun k => compare k target == .lt) ∧
        l.contains compare target = some (ks.any fun k => compare target k == .eq) := by
  obtain ⟨l, hinsert, hsorted, hkeys⟩ : ∃ l : SkipList Key,
      empty.insertAll compare inserts = some l ∧ l.Sorted compare ∧
        l.keys = empty.keys ++ inserts.map Prod.fst :=
    insertAll_spec sorted_empty hheights hdistinct
  obtain ⟨ks, h⟩ := represents_of_sorted hsorted
  obtain ⟨is, hvisits, hks⟩ := h.visits
  have hperm := h.perm
  rw [hkeys] at hperm
  exact ⟨l, is, ks, hinsert, hperm, h.pairwise, hvisits, hks, seekToLast_key h, fun target =>
    ⟨seek_spec h target, findLessThan_key h target, contains_key h target⟩⟩

end Refinement

theorem two_keys_sorted : ∃ (l : SkipList ℕ) (ks : List ℕ),
    empty.insertAll Ord.compare [(20, 1), (10, 3)] = some l ∧ ks.Perm [20, 10] ∧
      ks.Pairwise (fun a b => Ord.compare a b = .lt) ∧
      ∀ target, (l.seek Ord.compare target).map (fun r => r.bind l.key?) =
        some (ks.find? fun k => Ord.compare k target != .lt) := by
  have hdistinct : ([(20, 1), (10, 3)].map Prod.fst).Pairwise
      fun a b : ℕ => Ord.compare a b ≠ .eq := by decide
  obtain ⟨l, is, ks, hinsert, hperm, hpairwise, -, -, -, hsearch⟩ :=
    skip_list_is_sorted_list [(20, 1), (10, 3)] (by decide) hdistinct
  exact ⟨l, ks, hinsert, hperm, hpairwise, fun target => (hsearch target).1⟩

end SkipList

end PracticeApps.LevelDB
