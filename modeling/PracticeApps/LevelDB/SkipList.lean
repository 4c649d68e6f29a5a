import Mathlib.Data.Finset.Card
import Mathlib.Data.Finset.Range
import Mathlib.Data.Fintype.Basic

/-!
# skiplist.h

The nodes are an arena that only grows; a pointer is an index. Reading or
writing outside of the array of a node has no result, and neither has a search
that is not over in time. One thread writes, and the height of a new node is
the choice of the random number generator.
-/

namespace PracticeApps.LevelDB

def kMaxHeight : ℕ := 12

/- A node that can be read: `head_` or one that was inserted. -/
inductive Place where
  | head
  | node (i : ℕ)
  deriving DecidableEq

structure Node (Key : Type) where
  key : Key
  /-- `none` is `nullptr`. -/
  next : List (Option ℕ)

structure SkipList (Key : Type) where
  head : List (Option ℕ)
  nodes : List (Node Key)
  maxHeight : ℕ

namespace SkipList
variable {Key : Type} (compare : Key → Key → Ordering)

def empty : SkipList Key where
  head := List.replicate kMaxHeight none
  nodes := []
  maxHeight := 1

def links (l : SkipList Key) : Place → List (Option ℕ)
  | .head => l.head
  | .node i => (l.nodes[i]?.map Node.next).getD []

def key? (l : SkipList Key) (i : ℕ) : Option Key := l.nodes[i]?.map Node.key

/- `Next(n)` -/
def next (l : SkipList Key) (x : Place) (level : ℕ) : Option (Option ℕ) := (l.links x)[level]?

def write (l : SkipList Key) (x : Place) (level : ℕ) (p : Option ℕ) : SkipList Key :=
  match x with
  | .head => { l with head := l.head.set level p }
  | .node i =>
    { l with nodes := l.nodes.modify i (fun n => { n with next := n.next.set level p }) }

/- `SetNext(n, x)` -/
def setNext (l : SkipList Key) (x : Place) (level : ℕ) (p : Option ℕ) : Option (SkipList Key) :=
  if level < (l.links x).length then some (l.write x level p) else none

/- `KeyIsAfterNode` of a node. -/
def keyIsAfterNode (l : SkipList Key) (key : Key) (i : ℕ) : Bool :=
  (l.key? i).any fun k => compare k key == .lt

/- The loop of the three searches. They differ in when they stay in a list. -/
def search (l : SkipList Key) (stay : ℕ → Bool) : ℕ → Place → ℕ → List Place →
    Option (Option ℕ × List Place)
  | 0, _, _, _ => none
  | fuel + 1, x, level, prev =>
    match l.next x level with
    | none => none
    | some next =>
      match next.filter stay with
      | some i => search l stay fuel (.node i) level prev
      | none =>
        match level with
        | 0 => some (next, x :: prev)
        | level + 1 => search l stay fuel x level (x :: prev)

def fuel (l : SkipList Key) : ℕ := l.nodes.length + l.maxHeight

/- The node that comes at or after the key, and `prev` for every level. -/
def findGreaterOrEqual (l : SkipList Key) (key : Key) : Option (Option ℕ × List Place) :=
  l.search (l.keyIsAfterNode compare key) l.fuel .head (l.maxHeight - 1) []

def findLessThan (l : SkipList Key) (key : Key) : Option Place :=
  (l.search (l.keyIsAfterNode compare key) l.fuel .head (l.maxHeight - 1) []).bind
    fun found => found.2.head?

def findLast (l : SkipList Key) : Option Place :=
  (l.search (fun _ => true) l.fuel .head (l.maxHeight - 1) []).bind fun found => found.2.head?

def contains (l : SkipList Key) (key : Key) : Option Bool :=
  (l.findGreaterOrEqual compare key).map fun found =>
    (found.1.bind l.key?).any fun k => compare key k == .eq

/- The loop of `Insert`: the new node `x` behind each of `prev`. -/
def link (x : ℕ) : SkipList Key → ℕ → List Place → Option (SkipList Key)
  | l, _, [] => some l
  | l, i, p :: prev => do
    let n ← l.next p i
    let l ← l.setNext (.node x) i n
    let l ← l.setNext p i (some x)
    link x l (i + 1) prev

/- `NewNode(key, height)` -/
def newNode (l : SkipList Key) (key : Key) (height : ℕ) : SkipList Key where
  head := l.head
  nodes := l.nodes ++ [{ key := key, next := List.replicate height none }]
  maxHeight := max l.maxHeight height

def insert (l : SkipList Key) (key : Key) (height : ℕ) : Option (SkipList Key) := do
  let found ← l.findGreaterOrEqual compare key
  let prev := found.2 ++ List.replicate (height - l.maxHeight) .head
  link l.nodes.length (l.newNode key height) 0 (prev.take height)

/-! ### The order of the nodes -/

def height (l : SkipList Key) (x : Place) : ℕ := (l.links x).length

/- The node `j` has a larger key than `x`, and `head_` is before all. -/
def Before (l : SkipList Key) (x : Place) (j : ℕ) : Prop :=
  match x with
  | .head => True
  | .node i => ∃ a ∈ l.key? i, ∃ b ∈ l.key? j, compare a b = .lt

/- The next node at a level. -/
def IsNext (l : SkipList Key) (x : Place) (level : ℕ) : Option ℕ → Prop
  | none => ∀ k, level < l.height (.node k) → ¬ l.Before compare x k
  | some j => level < l.height (.node j) ∧ l.Before compare x j ∧
      ∀ k, level < l.height (.node k) → l.Before compare x k → ¬ l.Before compare (.node k) j

/-- At each level the nodes that are so high, in the order of their keys. -/
structure Sorted (l : SkipList Key) : Prop where
  head : l.head.length = kMaxHeight
  maxHeight_pos : 1 ≤ l.maxHeight
  maxHeight_le : l.maxHeight ≤ kMaxHeight
  height_pos : ∀ i < l.nodes.length, 1 ≤ l.height (.node i)
  height_le : ∀ i, l.height (.node i) ≤ l.maxHeight
  distinct : ∀ i j a b, l.key? i = some a → l.key? j = some b → i ≠ j → compare a b ≠ .eq
  points : ∀ x level r, l.next x level = some r → l.IsNext compare x level r

variable {compare} {l : SkipList Key}

theorem key?_isSome {i : ℕ} (h : i < l.nodes.length) : ∃ a, l.key? i = some a :=
  ⟨l.nodes[i].key, by rw [key?, List.getElem?_eq_getElem h]; rfl⟩

theorem lt_of_key? {i : ℕ} {a : Key} (h : l.key? i = some a) : i < l.nodes.length := by
  by_contra hout
  rw [key?, List.getElem?_eq_none (by omega)] at h
  cases h

theorem lt_of_height {i level : ℕ} (h : level < l.height (.node i)) : i < l.nodes.length := by
  by_contra hout
  rw [height, links, List.getElem?_eq_none (by omega)] at h
  exact absurd h (Nat.not_lt_zero level)

theorem height_of_next {x : Place} {level : ℕ} {r : Option ℕ} (h : l.next x level = some r) :
    level < l.height x := (List.getElem?_eq_some_iff.mp h).1

theorem next_isSome {x : Place} {level : ℕ} (h : level < l.height x) :
    ∃ r, l.next x level = some r := ⟨_, List.getElem?_eq_getElem h⟩

theorem keyIsAfterNode_iff {key : Key} {i : ℕ} :
    l.keyIsAfterNode compare key i = true ↔ ∃ k ∈ l.key? i, compare k key = .lt := by
  unfold keyIsAfterNode
  rw [Option.any_eq_true]
  simp only [beq_iff_eq, Option.mem_def]

open Classical in
/- The nodes behind `x`. -/
noncomputable def behind (compare : Key → Key → Ordering) (l : SkipList Key) (x : Place) :
    Finset ℕ :=
  (Finset.range l.nodes.length).filter fun k => l.Before compare x k

theorem mem_behind {x : Place} {k : ℕ} :
    k ∈ l.behind compare x ↔ k < l.nodes.length ∧ l.Before compare x k := by
  simp only [behind, Finset.mem_filter, Finset.mem_range]

theorem behind_card_le (x : Place) : (l.behind compare x).card ≤ l.nodes.length := by
  have hsubset : l.behind compare x ⊆ Finset.range l.nodes.length := fun k hk =>
    Finset.mem_range.mpr (mem_behind.mp hk).1
  have hcard := Finset.card_le_card hsubset
  rw [Finset.card_range] at hcard
  exact hcard

section Order
variable [Std.TransCmp compare]

theorem before_trans {x : Place} {i j : ℕ} (hi : l.Before compare x i)
    (hj : l.Before compare (.node i) j) : l.Before compare x j := by
  cases x with
  | head => trivial
  | node k =>
    obtain ⟨a, ha, b, hb, hab⟩ := hi
    obtain ⟨b', hb', c, hc, hbc⟩ := hj
    have hsame : b = b' := Option.mem_unique hb hb'
    subst hsame
    exact ⟨a, ha, c, hc, Std.TransCmp.lt_trans hab hbc⟩

theorem not_before_self (i : ℕ) : ¬ l.Before compare (.node i) i := by
  rintro ⟨a, ha, b, hb, hab⟩
  have hsame : a = b := Option.mem_unique ha hb
  subst hsame
  have hself : compare a a = .eq := Std.ReflCmp.compare_self
  rw [hself] at hab
  cases hab

theorem Sorted.total (h : l.Sorted compare) {i j : ℕ} (hi : i < l.nodes.length)
    (hj : j < l.nodes.length) (hne : i ≠ j) :
    l.Before compare (.node i) j ∨ l.Before compare (.node j) i := by
  obtain ⟨a, ha⟩ := key?_isSome hi
  obtain ⟨b, hb⟩ := key?_isSome hj
  cases hab : compare a b with
  | lt => exact Or.inl ⟨a, ha, b, hb, hab⟩
  | eq => exact absurd hab (h.distinct i j a b ha hb hne)
  | gt => exact Or.inr ⟨b, hb, a, ha, Std.OrientedCmp.lt_of_gt hab⟩

theorem behind_card_lt {x : Place} {j : ℕ} (hj : j < l.nodes.length)
    (h : l.Before compare x j) :
    (l.behind compare (.node j)).card < (l.behind compare x).card := by
  have hsubset : l.behind compare (.node j) ⊆ l.behind compare x := by
    intro k hk
    obtain ⟨hrange, hbefore⟩ := mem_behind.mp hk
    exact mem_behind.mpr ⟨hrange, before_trans h hbefore⟩
  apply Finset.card_lt_card
  rw [Finset.ssubset_iff_of_subset hsubset]
  exact ⟨j, mem_behind.mpr ⟨hj, h⟩, fun hmem => not_before_self j (mem_behind.mp hmem).2⟩

/-! ### Searching -/

/- `x` is the head or a node the search goes past. -/
def Passed (stay : ℕ → Bool) : Place → Prop
  | .head => True
  | .node i => stay i = true

/- The last place at a level that the search goes past. -/
structure Last (compare : Key → Key → Ordering) (l : SkipList Key) (stay : ℕ → Bool)
    (level : ℕ) (x : Place) : Prop where
  high : level < l.height x
  passed : Passed stay x
  last : ∀ k, level < l.height (.node k) → stay k = true → ¬ l.Before compare x k

/- The nodes that a search goes past come first. -/
def FirstOnes (compare : Key → Key → Ordering) (l : SkipList Key) (stay : ℕ → Bool) : Prop :=
  ∀ i j, i < l.nodes.length → l.Before compare (.node i) j → stay j = true → stay i = true

/- A place from which the search does not go on is the last one it goes past at that level. -/
theorem last_of_next (h : l.Sorted compare) {stay : ℕ → Bool} (hstay : l.FirstOnes compare stay)
    {x : Place} {level : ℕ} {r : Option ℕ} (hpassed : Passed stay x) (hlevel : level < l.height x)
    (hnext : l.IsNext compare x level r) (hfilter : r.filter stay = none) :
    Last compare l stay level x := by
  refine ⟨hlevel, hpassed, ?_⟩
  intro k hk hkstay hbefore
  cases r with
  | none => exact hnext k hk hbefore
  | some j =>
    obtain ⟨hhigh, -, hfirst⟩ := hnext
    have hjstay : ¬ stay j = true := by
      intro hj
      rw [Option.filter_some, if_pos hj] at hfilter
      cases hfilter
    by_cases hsame : k = j
    · exact hjstay (hsame ▸ hkstay)
    · rcases h.total (lt_of_height hk) (lt_of_height hhigh) hsame with hkj | hjk
      · exact hfirst k hk hbefore hkj
      · exact hjstay (hstay j k (lt_of_height hhigh) hjk hkstay)

theorem search_spec (h : l.Sorted compare) {stay : ℕ → Bool}
    (hstay : l.FirstOnes compare stay) (n : ℕ) (x : Place) (level : ℕ) (prev : List Place)
    (hpassed : Passed stay x) (hlevel : level < l.height x)
    (hn : (l.behind compare x).card + level < n) :
    ∃ r x₀ ps, l.search stay n x level prev = some (r, x₀ :: ps ++ prev) ∧
      l.next x₀ 0 = some r ∧ ps.length = level ∧
      ∀ i p, (x₀ :: ps)[i]? = some p → Last compare l stay i p := by
  induction n generalizing x level prev with
  | zero => omega
  | succ n ih =>
    obtain ⟨r, hr⟩ := next_isSome hlevel
    have hnext := h.points x level r hr
    unfold search
    rw [hr]
    dsimp only
    cases hfilter : r.filter stay with
    | some j =>
      -- The search stays at this level.
      obtain ⟨rfl, hj⟩ := Option.filter_eq_some_iff.mp hfilter
      obtain ⟨hhigh, hbefore, -⟩ := hnext
      have hfewer := behind_card_lt (lt_of_height hhigh) hbefore
      exact ih (.node j) level prev hj hhigh (by omega)
    | none =>
      have hlast := last_of_next h hstay hpassed hlevel hnext hfilter
      cases level with
      | zero =>
        refine ⟨r, x, [], rfl, hr, rfl, ?_⟩
        intro i p hp
        cases i with
        | zero =>
          cases hp
          exact hlast
        | succ i => cases hp
      | succ level =>
        -- One level down, from the same node.
        obtain ⟨r', x₀, ps, hsearch, hr', hps, hlasts⟩ :=
          ih x level (x :: prev) hpassed (by omega) (by omega)
        refine ⟨r', x₀, ps ++ [x], ?_, hr', ?_, ?_⟩
        · rw [List.cons_append, List.append_assoc]
          exact hsearch
        · rw [List.length_append, hps, List.length_singleton]
        · intro i p hp
          rw [← List.cons_append] at hp
          by_cases hi : i < (x₀ :: ps).length
          · rw [List.getElem?_append_left hi] at hp
            exact hlasts i p hp
          · rw [List.getElem?_append_right (by omega)] at hp
            obtain ⟨hzero, hx⟩ := List.getElem?_eq_some_iff.mp hp
            have hi' : i = level + 1 := by
              rw [List.length_singleton] at hzero
              rw [List.length_cons] at hzero hi
              omega
            subst hi'
            have hxp : x = p := by
              rw [← hx, List.getElem_singleton]
            exact hxp ▸ hlast

theorem search_head (h : l.Sorted compare) {stay : ℕ → Bool} (hstay : l.FirstOnes compare stay) :
    ∃ r x₀ ps, l.search stay l.fuel .head (l.maxHeight - 1) [] = some (r, x₀ :: ps) ∧
      l.next x₀ 0 = some r ∧ ps.length = l.maxHeight - 1 ∧
      ∀ i p, (x₀ :: ps)[i]? = some p → Last compare l stay i p := by
  have hcard : (l.behind compare .head).card ≤ l.nodes.length := behind_card_le _
  have hpos := h.maxHeight_pos
  have hle := h.maxHeight_le
  have hhead : l.height .head = kMaxHeight := h.head
  have hfound := search_spec h hstay l.fuel .head (l.maxHeight - 1) [] trivial (by omega)
    (by unfold fuel; omega)
  simp only [List.append_nil] at hfound
  exact hfound

theorem firstOnes_key (key : Key) : l.FirstOnes compare (l.keyIsAfterNode compare key) := by
  rintro i j - ⟨a, ha, b, hb, hab⟩ hj
  rw [keyIsAfterNode_iff] at hj ⊢
  obtain ⟨b', hb', hlt⟩ := hj
  have hsame : b = b' := Option.mem_unique hb hb'
  subst hsame
  exact ⟨a, ha, Std.TransCmp.lt_trans hab hlt⟩

/-- The first of the nodes that are not before the key. -/
theorem findGreaterOrEqual_spec (h : l.Sorted compare) (key : Key) :
    ∃ r prev, l.findGreaterOrEqual compare key = some (r, prev) ∧
      prev.length = l.maxHeight ∧
      (∀ i p, prev[i]? = some p → Last compare l (l.keyIsAfterNode compare key) i p) ∧
      match r with
      | none => ∀ k a, l.key? k = some a → compare a key = .lt
      | some j => ∃ b, l.key? j = some b ∧ compare b key ≠ .lt ∧
          ∀ k a, l.key? k = some a → compare a key ≠ .lt → compare a b ≠ .lt := by
  obtain ⟨r, x₀, ps, hsearch, hr, hps, hlasts⟩ := search_head h (firstOnes_key key)
  have hpos := h.maxHeight_pos
  refine ⟨r, x₀ :: ps, hsearch, by rw [List.length_cons]; omega, hlasts, ?_⟩
  have hlast := hlasts 0 x₀ rfl
  have hnext := h.points x₀ 0 r hr
  have hbehind : ∀ k a, l.key? k = some a → compare a key ≠ .lt → l.Before compare x₀ k := by
    intro k a ha hge
    cases x₀ with
    | head => trivial
    | node i =>
      obtain ⟨b, hb, hlt⟩ := keyIsAfterNode_iff.mp hlast.passed
      refine ⟨b, hb, a, ha, Std.TransCmp.lt_of_lt_of_isLE hlt ?_⟩
      apply Std.OrientedCmp.isLE_of_isGE
      cases hcmp : compare a key with
      | lt => exact absurd hcmp hge
      | eq => rfl
      | gt => rfl
  cases r with
  | none =>
    intro k a ha
    by_contra hge
    exact hnext k (h.height_pos k (lt_of_key? ha)) (hbehind k a ha hge)
  | some j =>
    obtain ⟨hhigh, hbefore, hfirst⟩ := hnext
    obtain ⟨b, hb⟩ := key?_isSome (lt_of_height hhigh)
    refine ⟨b, hb, ?_, ?_⟩
    · intro hlt
      exact hlast.last j hhigh (keyIsAfterNode_iff.mpr ⟨b, hb, hlt⟩) hbefore
    · intro k a ha hge hlt
      exact hfirst k (h.height_pos k (lt_of_key? ha)) (hbehind k a ha hge) ⟨a, ha, b, hb, hlt⟩

/-! ### Insertion -/

end Order

def keys (l : SkipList Key) : List Key := l.nodes.map Node.key

theorem key?_eq (l : SkipList Key) (i : ℕ) : l.key? i = l.keys[i]? := by
  rw [key?, keys, List.getElem?_map]

/- Only pointers differ. -/
structure SameShape (l l' : SkipList Key) : Prop where
  keys : l'.keys = l.keys
  maxHeight : l'.maxHeight = l.maxHeight
  height : ∀ y, l'.height y = l.height y

theorem SameShape.trans {l l' l'' : SkipList Key} (h : l.SameShape l') (h' : l'.SameShape l'') :
    l.SameShape l'' where
  keys := h'.keys.trans h.keys
  maxHeight := h'.maxHeight.trans h.maxHeight
  height y := (h'.height y).trans (h.height y)

theorem links_write (l : SkipList Key) (x y : Place) (level : ℕ) (p : Option ℕ) :
    (l.write x level p).links y = if y = x then (l.links x).set level p else l.links y := by
  cases x with
  | head =>
    cases y with
    | head => rw [if_pos rfl]; rfl
    | node k => rw [if_neg (fun h => by cases h)]; rfl
  | node i =>
    cases y with
    | head => rw [if_neg (fun h => by cases h)]; rfl
    | node k =>
      unfold write links
      dsimp only
      rw [List.getElem?_modify]
      by_cases hk : k = i
      · subst hk
        rw [if_pos rfl]
        cases l.nodes[k]? <;> simp
      · rw [if_neg (fun h => hk (by cases h; rfl))]
        cases l.nodes[k]? <;> simp [Ne.symm hk]

theorem keys_write (l : SkipList Key) (x : Place) (level : ℕ) (p : Option ℕ) :
    (l.write x level p).keys = l.keys := by
  cases x with
  | head => rfl
  | node i =>
    apply List.ext_getElem?
    intro k
    unfold write keys
    dsimp only
    rw [List.getElem?_map, List.getElem?_map, List.getElem?_modify]
    cases l.nodes[k]? with
    | none => rfl
    | some n => by_cases hk : i = k <;> simp [hk]

theorem setNext_spec {x : Place} {level : ℕ} (h : level < l.height x) (p : Option ℕ) :
    ∃ l', l.setNext x level p = some l' ∧ l.SameShape l' ∧
      ∀ y j, l'.next y j = if y = x ∧ j = level then some p else l.next y j := by
  refine ⟨l.write x level p, if_pos h, ⟨keys_write l x level p, ?_, ?_⟩, ?_⟩
  · cases x <;> rfl
  · intro y
    unfold height
    rw [links_write]
    by_cases hy : y = x
    · rw [if_pos hy, List.length_set, hy]
    · rw [if_neg hy]
  · intro y j
    unfold next
    rw [links_write]
    by_cases hy : y = x
    · rw [if_pos hy, List.getElem?_set]
      by_cases hj : level = j
      · have hin : level < (l.links x).length := h
        rw [if_pos hj, if_pos hin, if_pos (And.intro hy hj.symm)]
      · rw [if_neg hj, if_neg (fun hboth => hj hboth.2.symm), hy]
    · rw [if_neg hy, if_neg (fun hboth => hy hboth.1)]

/-- The links after the loop of `Insert`. -/
structure Linked (x : ℕ) (l l' : SkipList Key) (level : ℕ) (prev : List Place) : Prop where
  shape : l.SameShape l'
  other : ∀ y j, (∀ i, i < prev.length → j ≠ level + i) → l'.next y j = l.next y j
  new : ∀ i q, prev[i]? = some q → l'.next (.node x) (level + i) = l.next q (level + i)
  into : ∀ i q, prev[i]? = some q → l'.next q (level + i) = some (some x)
  kept : ∀ i q y, prev[i]? = some q → y ≠ .node x → y ≠ q →
    l'.next y (level + i) = l.next y (level + i)

theorem link_spec (x : ℕ) (prev : List Place) (l : SkipList Key) (level : ℕ)
    (hprev : ∀ i p, prev[i]? = some p → level + i < l.height p ∧ p ≠ .node x)
    (hx : level + prev.length ≤ l.height (.node x)) :
    ∃ l', link x l level prev = some l' ∧ Linked x l l' level prev := by
  induction prev generalizing l level with
  | nil =>
    refine ⟨l, rfl, ⟨rfl, rfl, fun _ => rfl⟩, fun _ _ _ => rfl, ?_, ?_, ?_⟩
    · intro i q hq
      cases hq
    · intro i q hq
      cases hq
    · intro i q y hq
      cases hq
  | cons p prev ih =>
    obtain ⟨hp, hpx⟩ := hprev 0 p rfl
    rw [List.length_cons] at hx
    rw [Nat.add_zero] at hp
    have hxhigh : level < l.height (.node x) := by omega
    obtain ⟨n, hn⟩ := next_isSome hp
    obtain ⟨l₁, hset₁, hshape₁, hnext₁⟩ := setNext_spec hxhigh n
    rw [← hshape₁.height] at hp
    obtain ⟨l₂, hset₂, hshape₂, hnext₂⟩ := setNext_spec hp (some x)
    have hshape := hshape₁.trans hshape₂
    have hprev' : ∀ i q, prev[i]? = some q → level + 1 + i < l₂.height q ∧ q ≠ .node x := by
      intro i q hq
      obtain ⟨hhigh, hne⟩ := hprev (i + 1) q hq
      rw [hshape.height]
      exact ⟨by omega, hne⟩
    obtain ⟨l', hlink, hlinked⟩ := ih l₂ (level + 1) hprev' (by rw [hshape.height]; omega)
    have hstep : link x l level (p :: prev) = link x l₂ (level + 1) prev := by
      rw [link, hn, Option.bind_eq_bind, Option.bind_some, hset₁, Option.bind_eq_bind,
        Option.bind_some, hset₂]
      rfl
    -- The two writes at this level do not show at any other.
    have habove : ∀ y j, j ≠ level → l₂.next y j = l.next y j := by
      intro y j hj
      rw [hnext₂, if_neg (fun hboth => hj hboth.2), hnext₁, if_neg (fun hboth => hj hboth.2)]
    have hthis : ∀ y, l'.next y level = l₂.next y level := by
      intro y
      apply hlinked.other
      intro i _
      omega
    refine ⟨l', hstep.trans hlink, hshape.trans hlinked.shape, ?_, ?_, ?_, ?_⟩
    · intro y j hj
      have hlevel : j ≠ level := hj 0 (Nat.succ_pos _)
      rw [hlinked.other y j, habove y j hlevel]
      intro i hi
      have hne := hj (i + 1) (Nat.succ_lt_succ hi)
      omega
    · intro i q hq
      cases i with
      | zero =>
        cases hq
        rw [Nat.add_zero, hthis, hnext₂, if_neg (fun hboth => hpx hboth.1.symm), hnext₁,
          if_pos ⟨rfl, rfl⟩, hn]
      | succ i =>
        have hnew := hlinked.new i q hq
        rw [Nat.add_right_comm, Nat.add_assoc, habove q _ (by omega)] at hnew
        exact hnew
    · intro i q hq
      cases i with
      | zero =>
        cases hq
        rw [Nat.add_zero, hthis, hnext₂, if_pos ⟨rfl, rfl⟩]
      | succ i =>
        have hinto := hlinked.into i q hq
        rw [Nat.add_right_comm, Nat.add_assoc] at hinto
        exact hinto
    · intro i q y hq hyx hyq
      cases i with
      | zero =>
        cases hq
        rw [Nat.add_zero, hthis, hnext₂, if_neg (fun hboth => hyq hboth.1), hnext₁,
          if_neg (fun hboth => hyx hboth.1)]
      | succ i =>
        have hkept := hlinked.kept i q y hq hyx hyq
        rw [Nat.add_right_comm, Nat.add_assoc, habove y _ (by omega)] at hkept
        exact hkept

/-! The new node is known to the list but not yet linked. -/

theorem newNode_keys (l : SkipList Key) (key : Key) (height : ℕ) :
    (l.newNode key height).keys = l.keys ++ [key] := by
  rw [keys, newNode, List.map_append]
  rfl

theorem length_keys (l : SkipList Key) : l.keys.length = l.nodes.length := List.length_map _

theorem newNode_links (l : SkipList Key) (key : Key) (height : ℕ) {y : Place}
    (hy : y ≠ .node l.nodes.length) : (l.newNode key height).links y = l.links y := by
  cases y with
  | head => rfl
  | node i =>
    have hi : i ≠ l.nodes.length := fun h => hy (congrArg Place.node h)
    unfold links newNode
    dsimp only
    by_cases hlt : i < l.nodes.length
    · rw [List.getElem?_append_left hlt]
    · rw [List.getElem?_eq_none (by rw [List.length_append, List.length_singleton]; omega),
        List.getElem?_eq_none (by omega)]

theorem newNode_height (l : SkipList Key) (key : Key) (height : ℕ) :
    (l.newNode key height).height (.node l.nodes.length) = height := by
  unfold SkipList.height links newNode
  dsimp only
  rw [List.getElem?_append_right (Nat.le_refl _), Nat.sub_self]
  exact List.length_replicate

section Insert
variable {key : Key} {height : ℕ} {prev : List Place} {l' : SkipList Key}

/- What `Insert` leaves behind, before it is known to be sorted. -/
structure Inserted (compare : Key → Key → Ordering) (l l' : SkipList Key) (key : Key)
    (height : ℕ) (prev : List Place) : Prop where
  keys : l'.keys = l.keys ++ [key]
  maxHeight : l'.maxHeight = max l.maxHeight height
  heights : ∀ y, y ≠ .node l.nodes.length → l'.height y = l.height y
  newHeight : l'.height (.node l.nodes.length) = height
  lasts : ∀ i q, prev[i]? = some q → Last compare l (l.keyIsAfterNode compare key) i q
  length : prev.length = height
  above : ∀ y i, y ≠ .node l.nodes.length → height ≤ i → l'.next y i = l.next y i
  new : ∀ i q, prev[i]? = some q → l'.next (.node l.nodes.length) i = l.next q i
  into : ∀ i q, prev[i]? = some q → l'.next q i = some (some l.nodes.length)
  kept : ∀ i q y, prev[i]? = some q → y ≠ .node l.nodes.length → y ≠ q → l'.next y i = l.next y i

theorem height_new (l : SkipList Key) : l.height (.node l.nodes.length) = 0 := by
  unfold SkipList.height links
  dsimp only
  rw [List.getElem?_eq_none (Nat.le_refl _)]
  rfl

/- The `prev` of an insertion: where the search went down, and `head_` above that. -/
theorem prev_lasts [Std.TransCmp compare] (h : l.Sorted compare) (hle : height ≤ kMaxHeight)
    {found : List Place} (hlength : found.length = l.maxHeight)
    (hlasts : ∀ i q, found[i]? = some q → Last compare l (l.keyIsAfterNode compare key) i q)
    (i : ℕ) (q : Place)
    (hq : ((found ++ List.replicate (height - l.maxHeight) Place.head).take height)[i]? = some q) :
    Last compare l (l.keyIsAfterNode compare key) i q := by
  have hi : i < height := by
    have hin := (List.getElem?_eq_some_iff.mp hq).1
    exact hin.trans_le (List.length_take_le _ _)
  rw [List.getElem?_take_of_lt hi] at hq
  by_cases hlow : i < found.length
  · rw [List.getElem?_append_left hlow] at hq
    exact hlasts i q hq
  · -- Above the old height there is only `head_`.
    rw [List.getElem?_append_right (by omega)] at hq
    obtain ⟨hin, hhead⟩ := List.getElem?_eq_some_iff.mp hq
    rw [List.getElem_replicate] at hhead
    subst hhead
    have hheads : l.height .head = kMaxHeight := h.head
    refine ⟨hi.trans_le (hle.trans hheads.ge), trivial, ?_⟩
    intro k hk _ _
    have hk' := h.height_le k
    omega

theorem insert_inserted [Std.TransCmp compare] (h : l.Sorted compare)
    (hle : height ≤ kMaxHeight) :
    ∃ l' prev, l.insert compare key height = some l' ∧
      Inserted compare l l' key height prev := by
  obtain ⟨r, found, hfound, hlength, hlasts, -⟩ := findGreaterOrEqual_spec h key
  have hprevLasts := prev_lasts h hle hlength hlasts
  have hprevLength :
      ((found ++ List.replicate (height - l.maxHeight) Place.head).take height).length =
        height := by
    rw [List.length_take, List.length_append, List.length_replicate, hlength]
    omega
  -- only the facts about `prev` are needed
  obtain ⟨prev, hprev⟩ : ∃ prev,
      (found ++ List.replicate (height - l.maxHeight) Place.head).take height = prev := ⟨_, rfl⟩
  rw [hprev] at hprevLasts hprevLength
  have hnotNew : ∀ (i : ℕ) (q : Place), prev[i]? = some q → q ≠ Place.node l.nodes.length := by
    intro i q hq hnew
    have hhigh := (hprevLasts i q hq).high
    rw [hnew, height_new] at hhigh
    omega
  have hlink := link_spec l.nodes.length prev (l.newNode key height) 0
    (by
      intro i q hq
      have hq' := hnotNew i q hq
      refine ⟨?_, hq'⟩
      unfold SkipList.height
      rw [newNode_links l key height hq', Nat.zero_add]
      exact (hprevLasts i q hq).high)
    (by rw [newNode_height]; omega)
  obtain ⟨l', hl', hlinked⟩ := hlink
  have hnext : ∀ {y : Place}, y ≠ .node l.nodes.length → ∀ i,
      (l.newNode key height).next y i = l.next y i := by
    intro y hy i
    unfold next
    rw [newNode_links l key height hy]
  refine ⟨l', prev, ?_, ?_⟩
  · unfold insert
    rw [hfound, Option.bind_eq_bind, Option.bind_some]
    rw [← hprev] at hl'
    exact hl'
  · constructor
    · rw [hlinked.shape.keys, newNode_keys]
    · rw [hlinked.shape.maxHeight, newNode]
    · intro y hy
      rw [hlinked.shape.height]
      unfold SkipList.height
      rw [newNode_links l key height hy]
    · rw [hlinked.shape.height, newNode_height]
    · exact hprevLasts
    · exact hprevLength
    · intro y i hy hi
      rw [hlinked.other y i (by intro k hk; omega), hnext hy]
    · intro i q hq
      have hnew := hlinked.new i q hq
      rw [Nat.zero_add] at hnew
      rw [hnew, hnext (hnotNew i q hq)]
    · intro i q hq
      have hinto := hlinked.into i q hq
      rw [Nat.zero_add] at hinto
      exact hinto
    · intro i q y hq hy hyq
      have hkept := hlinked.kept i q y hq hy hyq
      rw [Nat.zero_add] at hkept
      rw [hkept, hnext hy]

namespace Inserted
variable (hins : Inserted compare l l' key height prev)
include hins

theorem length_nodes : l'.nodes.length = l.nodes.length + 1 := by
  rw [← length_keys, hins.keys, List.length_append, length_keys]
  rfl

theorem key?_old {k : ℕ} (hk : k ≠ l.nodes.length) : l'.key? k = l.key? k := by
  rw [key?_eq, key?_eq, hins.keys]
  by_cases hlt : k < l.nodes.length
  · rw [List.getElem?_append_left (by rw [length_keys]; exact hlt)]
  · rw [List.getElem?_eq_none
      (by rw [List.length_append, length_keys, List.length_singleton]; omega),
      List.getElem?_eq_none (by rw [length_keys]; omega)]

theorem key?_new : l'.key? l.nodes.length = some key := by
  rw [key?_eq, hins.keys, ← length_keys]
  exact List.getElem?_concat_length

theorem before_old {x : Place} {k : ℕ} (hx : x ≠ .node l.nodes.length)
    (hk : k ≠ l.nodes.length) : l'.Before compare x k ↔ l.Before compare x k := by
  cases x with
  | head => exact Iff.rfl
  | node i =>
    have hi : i ≠ l.nodes.length := fun h => hx (congrArg Place.node h)
    unfold Before
    dsimp only
    rw [hins.key?_old hi, hins.key?_old hk]

/- The places in front of the new node are those the search went past. -/
theorem before_new {x : Place} (hx : x ≠ .node l.nodes.length) :
    l'.Before compare x l.nodes.length ↔ Passed (l.keyIsAfterNode compare key) x := by
  cases x with
  | head => exact Iff.rfl
  | node i =>
    have hi : i ≠ l.nodes.length := fun h => hx (congrArg Place.node h)
    show _ ↔ l.keyIsAfterNode compare key i = true
    rw [keyIsAfterNode_iff]
    unfold Before
    dsimp only
    rw [hins.key?_old hi, hins.key?_new]
    constructor
    · rintro ⟨a, ha, b, hb, hab⟩
      cases hb
      exact ⟨a, ha, hab⟩
    · rintro ⟨a, ha, hab⟩
      exact ⟨a, ha, key, rfl, hab⟩

theorem new_before {k : ℕ} (hk : k ≠ l.nodes.length) :
    l'.Before compare (.node l.nodes.length) k ↔ ∃ b ∈ l.key? k, compare key b = .lt := by
  unfold Before
  dsimp only
  rw [hins.key?_old hk, hins.key?_new]
  constructor
  · rintro ⟨a, ha, b, hb, hab⟩
    cases ha
    exact ⟨b, hb, hab⟩
  · rintro ⟨b, hb, hab⟩
    exact ⟨key, rfl, b, hb, hab⟩

/- What was next to an old place is next to it, unless the new node comes between. -/
theorem isNext_old {x : Place} {i : ℕ} {r : Option ℕ} (hx : x ≠ .node l.nodes.length)
    (hnext : l.IsNext compare x i r)
    (hbetween : i < height → l'.Before compare x l.nodes.length →
      ∃ j, r = some j ∧ ¬ l'.Before compare (.node l.nodes.length) j) :
    l'.IsNext compare x i r := by
  have hheight : ∀ k, k ≠ l.nodes.length → l'.height (.node k) = l.height (.node k) :=
    fun k hk => hins.heights _ fun h => hk (by cases h; rfl)
  cases r with
  | none =>
    intro k hk hbefore
    by_cases hnew : k = l.nodes.length
    · subst hnew
      rw [hins.newHeight] at hk
      obtain ⟨j, hj, -⟩ := hbetween hk hbefore
      cases hj
    · rw [hheight k hnew] at hk
      exact hnext k hk ((hins.before_old hx hnew).mp hbefore)
  | some j =>
    obtain ⟨hhigh, hbefore, hfirst⟩ := hnext
    have hj : j ≠ l.nodes.length := Nat.ne_of_lt (lt_of_height hhigh)
    refine ⟨by rw [hheight j hj]; exact hhigh, (hins.before_old hx hj).mpr hbefore, ?_⟩
    intro k hk hxk
    by_cases hnew : k = l.nodes.length
    · subst hnew
      rw [hins.newHeight] at hk
      obtain ⟨j', hj', hnot⟩ := hbetween hk hxk
      cases hj'
      exact hnot
    · rw [hheight k hnew] at hk
      have hk' : Place.node k ≠ .node l.nodes.length := fun h => hnew (by cases h; rfl)
      rw [hins.before_old hk' hj]
      exact hfirst k hk ((hins.before_old hx hnew).mp hxk)

variable [Std.TransCmp compare]

/- Of the old nodes at a level those in front of the new one end with its `prev`. -/
theorem before_prev (h : l.Sorted compare) {i : ℕ} {q x : Place} (hq : prev[i]? = some q)
    (hx : x ≠ .node l.nodes.length) (hxq : x ≠ q) (hhigh : i < l.height x)
    (hbefore : l'.Before compare x l.nodes.length) :
    ∃ k, q = .node k ∧ i < l.height (.node k) ∧ l.Before compare x k ∧
      l'.Before compare (.node k) l.nodes.length := by
  have hlast := hins.lasts i q hq
  have hpassed := (hins.before_new hx).mp hbefore
  cases q with
  | head =>
    cases x with
    | head => exact absurd rfl hxq
    | node m => exact absurd trivial (hlast.last m hhigh hpassed)
  | node k =>
    have hk : k ≠ l.nodes.length := Nat.ne_of_lt (lt_of_height hlast.high)
    refine ⟨k, rfl, hlast.high, ?_,
      (hins.before_new fun hnew => hk (by cases hnew; rfl)).mpr hlast.passed⟩
    cases x with
    | head => trivial
    | node m =>
      have hmk : m ≠ k := fun hsame => hxq (congrArg Place.node hsame)
      rcases h.total (lt_of_height hhigh) (lt_of_height hlast.high) hmk with hmk | hkm
      · exact hmk
      · exact absurd hkm (hlast.last m hhigh hpassed)

/- The new node takes over what its `prev` pointed to. -/
theorem isNext_new {i : ℕ} {q : Place} {r : Option ℕ}
    (hfresh : ∀ k a, l.key? k = some a → compare a key ≠ .eq) (hq : prev[i]? = some q)
    (hnext : l.IsNext compare q i r) : l'.IsNext compare (.node l.nodes.length) i r := by
  have hlast := hins.lasts i q hq
  have hheight : ∀ k, k ≠ l.nodes.length → l'.height (.node k) = l.height (.node k) :=
    fun k hk => hins.heights _ fun h => hk (by cases h; rfl)
  have hqnew : q ≠ .node l.nodes.length := by
    intro hsame
    have hhigh := hlast.high
    rw [hsame, height_new] at hhigh
    omega
  have hqbefore := (hins.before_new hqnew).mpr hlast.passed
  have hbehind : ∀ k, k ≠ l.nodes.length → l'.Before compare (.node l.nodes.length) k →
      l.Before compare q k := by
    intro k hk hbefore
    exact (hins.before_old hqnew hk).mp (before_trans hqbefore hbefore)
  cases r with
  | none =>
    intro k hk hbefore
    by_cases hnew : k = l.nodes.length
    · exact not_before_self _ (hnew ▸ hbefore)
    · rw [hheight k hnew] at hk
      exact hnext k hk (hbehind k hnew hbefore)
  | some j =>
    obtain ⟨hhigh, hbefore, hfirst⟩ := hnext
    have hj : j ≠ l.nodes.length := Nat.ne_of_lt (lt_of_height hhigh)
    obtain ⟨b, hb⟩ := key?_isSome (lt_of_height hhigh)
    refine ⟨by rw [hheight j hj]; exact hhigh, (hins.new_before hj).mpr ⟨b, hb, ?_⟩, ?_⟩
    · -- The next one is not in front of the new key and does not equal it.
      cases hcmp : compare b key with
      | lt => exact absurd hbefore (hlast.last j hhigh (keyIsAfterNode_iff.mpr ⟨b, hb, hcmp⟩))
      | eq => exact absurd hcmp (hfresh j b hb)
      | gt => exact Std.OrientedCmp.lt_of_gt hcmp
    · intro k hk hnewk
      by_cases hnew : k = l.nodes.length
      · exact absurd (hnew ▸ hnewk) (not_before_self _)
      · rw [hheight k hnew] at hk
        have hk' : Place.node k ≠ .node l.nodes.length := fun h => hnew (by cases h; rfl)
        rw [hins.before_old hk' hj]
        exact hfirst k hk (hbehind k hnew hnewk)

/- `prev` points to the new node. -/
theorem isNext_into {i : ℕ} {q : Place} (hq : prev[i]? = some q)
    (hqnew : q ≠ .node l.nodes.length) : l'.IsNext compare q i (some l.nodes.length) := by
  have hlast := hins.lasts i q hq
  have hi : i < prev.length := (List.getElem?_eq_some_iff.mp hq).1
  refine ⟨by rw [hins.newHeight, ← hins.length]; exact hi,
    (hins.before_new hqnew).mpr hlast.passed, ?_⟩
  intro k hk hbefore hknew
  by_cases hnew : k = l.nodes.length
  · exact not_before_self _ (hnew ▸ hknew)
  · have hk' : Place.node k ≠ .node l.nodes.length := fun h => hnew (by cases h; rfl)
    rw [hins.heights _ hk'] at hk
    exact hlast.last k hk ((hins.before_new hk').mp hknew)
      ((hins.before_old hqnew hnew).mp hbefore)

/- The places in front of `prev` still point to what they did. -/
theorem isNext_kept (h : l.Sorted compare) {i : ℕ} {q x : Place} {r : Option ℕ}
    (hq : prev[i]? = some q) (hx : x ≠ .node l.nodes.length) (hxq : x ≠ q)
    (hr : l.next x i = some r) : l'.IsNext compare x i r := by
  have hnext := h.points x i r hr
  refine hins.isNext_old hx hnext fun _ hbefore => ?_
  obtain ⟨k, hqk, hk, hxk, hknew⟩ := hins.before_prev h hq hx hxq (height_of_next hr) hbefore
  cases r with
  | none => exact absurd hxk (hnext k hk)
  | some j =>
    refine ⟨j, rfl, fun hnewj => ?_⟩
    have hj : j ≠ l.nodes.length := Nat.ne_of_lt (lt_of_height hnext.1)
    have hk' : Place.node k ≠ .node l.nodes.length :=
      fun h => Nat.ne_of_lt (lt_of_height hk) (by cases h; rfl)
    exact hnext.2.2 k hk hxk ((hins.before_old hk' hj).mp (before_trans hknew hnewj))

theorem isNext (h : l.Sorted compare) (hfresh : ∀ k a, l.key? k = some a → compare a key ≠ .eq)
    (x : Place) (i : ℕ) (r : Option ℕ) (hr : l'.next x i = some r) :
    l'.IsNext compare x i r := by
  by_cases hx : x = .node l.nodes.length
  · subst hx
    have hi : i < prev.length := by
      rw [hins.length, ← hins.newHeight]
      exact height_of_next hr
    have hq := List.getElem?_eq_getElem hi
    rw [hins.new i _ hq] at hr
    exact hins.isNext_new hfresh hq (h.points _ i r hr)
  · by_cases hi : i < prev.length
    · have hq := List.getElem?_eq_getElem hi
      by_cases hxq : x = prev[i]
      · rw [hxq, hins.into i _ hq] at hr
        cases hr
        exact hxq ▸ hins.isNext_into hq (hxq ▸ hx)
      · rw [hins.kept i _ x hq hx hxq] at hr
        exact hins.isNext_kept h hq hx hxq hr
    · rw [hins.length] at hi
      rw [hins.above x i hx (Nat.le_of_not_lt hi)] at hr
      exact hins.isNext_old hx (h.points x i r hr) fun hlow _ => absurd hlow hi

theorem keys_distinct (h : l.Sorted compare)
    (hfresh : ∀ k a, l.key? k = some a → compare a key ≠ .eq) (i j : ℕ) (a b : Key)
    (ha : l'.key? i = some a) (hb : l'.key? j = some b) (hne : i ≠ j) : compare a b ≠ .eq := by
  by_cases hi : i = l.nodes.length
  · subst hi
    rw [hins.key?_new] at ha
    rw [hins.key?_old (Ne.symm hne)] at hb
    cases ha
    intro heq
    exact hfresh j b hb (Std.OrientedCmp.eq_symm heq)
  · rw [hins.key?_old hi] at ha
    by_cases hj : j = l.nodes.length
    · subst hj
      rw [hins.key?_new] at hb
      cases hb
      exact hfresh i a ha
    · rw [hins.key?_old hj] at hb
      exact h.distinct i j a b ha hb hne

theorem sorted (h : l.Sorted compare) (hpos : 1 ≤ height) (hle : height ≤ kMaxHeight)
    (hfresh : ∀ k a, l.key? k = some a → compare a key ≠ .eq) : l'.Sorted compare where
  head := by
    have hheads := hins.heights .head fun hnew => by cases hnew
    exact hheads.trans h.head
  maxHeight_pos := by
    have hmax := h.maxHeight_pos
    rw [hins.maxHeight]
    omega
  maxHeight_le := by
    have hmax := h.maxHeight_le
    rw [hins.maxHeight]
    omega
  height_pos := by
    intro i hi
    rw [hins.length_nodes] at hi
    by_cases hnew : i = l.nodes.length
    · rw [hnew, hins.newHeight]
      exact hpos
    · rw [hins.heights _ fun hsame => hnew (by cases hsame; rfl)]
      exact h.height_pos i (by omega)
  height_le := by
    intro i
    rw [hins.maxHeight]
    by_cases hnew : i = l.nodes.length
    · rw [hnew, hins.newHeight]
      exact Nat.le_max_right _ _
    · rw [hins.heights _ fun hsame => hnew (by cases hsame; rfl)]
      exact Nat.le_trans (h.height_le i) (Nat.le_max_left _ _)
  distinct := hins.keys_distinct h hfresh
  points := hins.isNext h hfresh

end Inserted

theorem sorted_empty : (empty : SkipList Key).Sorted compare where
  head := rfl
  maxHeight_pos := Nat.le_refl 1
  maxHeight_le := Nat.le_add_left 1 11
  height_pos := fun i hi => absurd hi (Nat.not_lt_zero i)
  height_le := fun i => Nat.zero_le _
  distinct := by
    intro i j a b ha
    cases ha
  points := by
    intro x level r hr
    cases r with
    | none =>
      intro k hk
      exact absurd (lt_of_height hk) (Nat.not_lt_zero k)
    | some j =>
      cases x with
      | head =>
        have hnull : (List.replicate kMaxHeight (none : Option ℕ))[level]? = some (some j) := hr
        rw [List.getElem?_replicate] at hnull
        split at hnull <;> cases hnull
      | node i => cases hr

/-- Whatever its height, a new key goes to its place. -/
theorem insert_spec [Std.TransCmp compare] (h : l.Sorted compare) (hpos : 1 ≤ height)
    (hle : height ≤ kMaxHeight) (hfresh : ∀ a ∈ l.keys, compare a key ≠ .eq) :
    ∃ l', l.insert compare key height = some l' ∧ l'.Sorted compare ∧
      l'.keys = l.keys ++ [key] := by
  obtain ⟨l', prev, hinsert, hins⟩ : ∃ l' prev, l.insert compare key height = some l' ∧
      Inserted compare l l' key height prev := insert_inserted h hle
  refine ⟨l', hinsert, hins.sorted h hpos hle ?_, hins.keys⟩
  intro k a ha
  rw [key?_eq] at ha
  exact hfresh a (List.mem_of_getElem? ha)

end Insert

end SkipList

end PracticeApps.LevelDB
