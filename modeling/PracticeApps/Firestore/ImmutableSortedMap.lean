import PracticeApps.Firestore.ArraySortedMap
import PracticeApps.Firestore.TreeSortedMap

/-!
# sorted_map.h, sorted_map_iterator.h, keys_view.h

Small maps are sorted arrays, larger ones trees. Whichever it is, reading it is reading the
sorted map that the calls made.
-/

namespace PracticeApps.Firestore
namespace Immutable

variable {κ ν : Type}

/-! ### Iterators -/

inductive SortedMapIterator (κ ν : Type) where
  | array (contents : List (κ × ν)) (pos : ℕ)
  | tree (it : LlrbNodeIterator κ ν)

namespace SortedMapIterator

def get : SortedMapIterator κ ν → Option (κ × ν)
  | .array contents pos => contents[pos]?
  | .tree it => it.get

/- There is no entry behind the end. -/
def next : SortedMapIterator κ ν → Option (SortedMapIterator κ ν)
  | .array contents pos =>
    if pos < contents.length then some (.array contents (pos + 1)) else none
  | .tree it => it.next.map .tree

/- `operator==` -/
def isSame [DecidableEq κ] : SortedMapIterator κ ν → SortedMapIterator κ ν → Bool
  | .array _ pos, .array _ pos' => decide (pos = pos')
  | .tree a, .tree b =>
    if a.isEnd then b.isEnd
    else if b.isEnd then false
    else decide (a.get.map Prod.fst = b.get.map Prod.fst)
  | _, _ => false

/- The entry after so many steps. -/
def entryAt (it : SortedMapIterator κ ν) : ℕ → Option (κ × ν)
  | 0 => it.get
  | steps + 1 => it.next.bind fun it => it.entryAt steps

/- The keys of a range, in a loop of fewer than so many rounds. -/
def keysUntil [DecidableEq κ] (stop : SortedMapIterator κ ν) :
    ℕ → SortedMapIterator κ ν → Option (List κ)
  | 0, _ => none
  | rounds + 1, it =>
    if it.isSame stop then some []
    else it.get.bind fun e => it.next.bind fun it => (keysUntil stop rounds it).map (e.1 :: ·)

end SortedMapIterator

/-! ### The map -/

inductive SortedMap (κ ν : Type) where
  | array (m : ArraySortedMap κ ν)
  | tree (m : TreeSortedMap κ ν)

namespace SortedMap
variable [LinearOrder κ]

def empty : SortedMap κ ν := .array { array := [] }

def isEmpty : SortedMap κ ν → Bool
  | .array m => m.isEmpty
  | .tree m => m.isEmpty

def size : SortedMap κ ν → ℕ
  | .array m => m.size
  | .tree m => m.size

/- The conversion is more eager than it needs to be. -/
def insert [DecidableEq ν] (m : SortedMap κ ν) (key : κ) (value : ν) : Option (SortedMap κ ν) :=
  match m with
  | .array m =>
    if kFixedSize ≤ m.size then
      (TreeSortedMap.create m.array).bind fun tree => (tree.insert key value).map .tree
    else (m.insert key value).map .array
  | .tree m => (m.insert key value).map .tree

/- Back to an array when nothing is left. -/
def erase (m : SortedMap κ ν) (key : κ) : Option (SortedMap κ ν) :=
  match m with
  | .array m => (m.erase key).map .array
  | .tree m => (m.erase key).map fun result => if result.isEmpty then empty else .tree result

def contains (m : SortedMap κ ν) (key : κ) : Bool :=
  match m with
  | .array m => m.contains key
  | .tree m => m.contains key

def find (m : SortedMap κ ν) (key : κ) : SortedMapIterator κ ν :=
  match m with
  | .array m => .array m.array (m.find key)
  | .tree m => .tree (m.find key)

def findIndex (m : SortedMap κ ν) (key : κ) : Option ℕ :=
  match m with
  | .array m => m.findIndex key
  | .tree m => m.findIndex key

def lowerBound (m : SortedMap κ ν) (key : κ) : SortedMapIterator κ ν :=
  match m with
  | .array m => .array m.array (m.lowerBound key)
  | .tree m => .tree (m.lowerBound key)

def begin : SortedMap κ ν → SortedMapIterator κ ν
  | .array m => .array m.array 0
  | .tree m => .tree m.begin

def endOf : SortedMap κ ν → SortedMapIterator κ ν
  | .array m => .array m.array m.array.length
  | .tree _ => .tree LlrbNodeIterator.endOf

def min : SortedMap κ ν → SortedMapIterator κ ν := begin

def max : SortedMap κ ν → SortedMapIterator κ ν
  | .array m => .array m.array m.max
  | .tree m => .tree m.max

def get (m : SortedMap κ ν) (key : κ) : Option ν :=
  if (m.find key).isSame m.endOf then none else (m.find key).get.map Prod.snd

/- `KeysViewIn`: where the range begins and where it ends. -/
def keysIn (m : SortedMap κ ν) (startKey endKey : κ) :
    SortedMapIterator κ ν × SortedMapIterator κ ν :=
  if compare startKey endKey = .lt then (m.lowerBound startKey, m.lowerBound endKey)
  else (m.endOf, m.endOf)

/- A call of `insert`, or of `erase`. -/
def change [DecidableEq ν] (m : SortedMap κ ν) (c : κ × Option ν) : Option (SortedMap κ ν) :=
  match c.2 with
  | some value => m.insert c.1 value
  | none => m.erase c.1

/-! ### The entries it holds -/

def Holds : SortedMap κ ν → PracticeApps.SortedMap κ ν → Prop
  | .array a, m => a.Holds m
  | .tree t, m => t.Holds m

/- An iterator of a map and the entries it has yet to visit. -/
def Reads : SortedMap κ ν → SortedMapIterator κ ν → List (κ × ν) → Prop
  | .array a, .array contents pos, es =>
    contents = a.array ∧ pos ≤ contents.length ∧ contents.drop pos = es
  | .tree _, .tree it, es => it.Reads es
  | _, _, _ => False

variable {m : SortedMap κ ν} {s : PracticeApps.SortedMap κ ν} {it : SortedMapIterator κ ν}
  {e : κ × ν} {es : List (κ × ν)}

omit [LinearOrder κ] in
theorem Reads.get_eq (h : Reads m it es) : it.get = es.head? := by
  cases m with
  | array a =>
    cases it with
    | tree => cases h
    | array contents pos =>
      obtain ⟨-, -, rfl⟩ := h
      exact List.head?_drop.symm
  | tree t =>
    cases it with
    | array => cases h
    | tree it => exact LlrbNodeIterator.Reads.get_eq h

omit [LinearOrder κ] in
theorem Reads.next (h : Reads m it (e :: es)) : ∃ it', it.next = some it' ∧ Reads m it' es := by
  cases m with
  | array a =>
    cases it with
    | tree => cases h
    | array contents pos =>
      obtain ⟨rfl, hpos, hdrop⟩ := h
      have hlt : pos < a.array.length := by
        have hlength := congrArg List.length hdrop
        rw [List.length_drop, List.length_cons] at hlength
        omega
      refine ⟨.array a.array (pos + 1), by simp [SortedMapIterator.next, hlt], rfl, hlt, ?_⟩
      rw [← List.tail_drop, hdrop, List.tail_cons]
  | tree t =>
    cases it with
    | array => cases h
    | tree it =>
      obtain ⟨it', hnext, hreads⟩ := LlrbNodeIterator.Reads.next h
      exact ⟨.tree it', by simp [SortedMapIterator.next, hnext], hreads⟩

omit [LinearOrder κ] in
theorem Reads.next_end (h : Reads m it []) : it.next = none := by
  cases m with
  | array a =>
    cases it with
    | tree => cases h
    | array contents pos =>
      obtain ⟨rfl, hpos, hdrop⟩ := h
      have hlength := List.drop_eq_nil_iff.mp hdrop
      simp [SortedMapIterator.next, hlength]
  | tree t =>
    cases it with
    | array => cases h
    | tree it =>
      have hend := LlrbNodeIterator.Reads.isEnd_eq h
      have hstack : it.stack = [] := List.isEmpty_iff.mp hend
      simp [SortedMapIterator.next, LlrbNodeIterator.next, hstack]

omit [LinearOrder κ] in
theorem Reads.entryAt_eq (h : Reads m it es) (steps : ℕ) : it.entryAt steps = es[steps]? := by
  induction steps generalizing it es with
  | zero => rw [SortedMapIterator.entryAt, h.get_eq, List.head?_eq_getElem?]
  | succ steps ih =>
    rw [SortedMapIterator.entryAt]
    cases es with
    | nil =>
      rw [h.next_end]
      rfl
    | cons e es =>
      obtain ⟨it', hnext, hreads⟩ := h.next
      rw [hnext, Option.bind_some, ih hreads, List.getElem?_cons_succ]

/- Two iterators of one map are the same when they have the same entries to visit. -/
theorem Reads.isSame_iff {it' : SortedMapIterator κ ν} {es' : List (κ × ν)}
    (before before' : List (κ × ν)) (h : Reads m it es) (h' : Reads m it' es')
    (hsorted : (before ++ es).Pairwise fun a b => a.1 < b.1)
    (hall : before ++ es = before' ++ es') : it.isSame it' = true ↔ es = es' := by
  cases m with
  | array a =>
    cases it with
    | tree => cases h
    | array contents pos =>
      cases it' with
      | tree => cases h'
      | array contents' pos' =>
        obtain ⟨rfl, hpos, rfl⟩ := h
        obtain ⟨rfl, hpos', rfl⟩ := h'
        unfold SortedMapIterator.isSame
        dsimp only
        rw [decide_eq_true_eq]
        constructor
        · rintro rfl
          rfl
        · intro hdrop
          have hlength := congrArg List.length hdrop
          rw [List.length_drop, List.length_drop] at hlength
          omega
  | tree t =>
    cases it with
    | array => cases h
    | tree it =>
      cases it' with
      | array => cases h'
      | tree it' =>
        unfold SortedMapIterator.isSame
        dsimp only
        rw [LlrbNodeIterator.Reads.isEnd_eq h, LlrbNodeIterator.Reads.isEnd_eq h',
          LlrbNodeIterator.Reads.get_eq h, LlrbNodeIterator.Reads.get_eq h']
        cases es with
        | nil => cases es' <;> simp
        | cons e es =>
          cases es' with
          | nil => simp
          | cons e' es' =>
            simp only [List.isEmpty_cons, Bool.false_eq_true, if_false, List.head?_cons,
              Option.map_some, Option.some.injEq, decide_eq_true_eq]
            constructor
            · intro hkey
              -- both are what is not below the key
              have hleft := PracticeApps.SortedMap.filter_ge_self hsorted
              rw [hall] at hsorted hleft
              rw [← hleft, hkey, PracticeApps.SortedMap.filter_ge_self hsorted]
            · intro hcons
              rw [(List.cons.inj hcons).1]

/- The loop visits what is between its iterators. -/
theorem Reads.keysUntil_eq {stop : SortedMapIterator κ ν} {rest : List (κ × ν)}
    (before visited : List (κ × ν)) (h : Reads m it (visited ++ rest)) (hstop : Reads m stop rest)
    (hsorted : (before ++ (visited ++ rest)).Pairwise fun a b => a.1 < b.1) {rounds : ℕ}
    (hrounds : visited.length < rounds) :
    SortedMapIterator.keysUntil stop rounds it = some (visited.map Prod.fst) := by
  induction visited generalizing it before rounds with
  | nil =>
    obtain ⟨rounds, rfl⟩ : ∃ r, rounds = r + 1 := ⟨rounds - 1, by simp at hrounds; omega⟩
    rw [SortedMapIterator.keysUntil, if_pos ((h.isSame_iff _ _ hstop hsorted rfl).mpr rfl)]
    rfl
  | cons e visited ih =>
    obtain ⟨rounds, rfl⟩ : ∃ r, rounds = r + 1 := ⟨rounds - 1, by simp at hrounds; omega⟩
    have hnot : it.isSame stop ≠ true := by
      intro hsame
      have heq := (h.isSame_iff _ (before ++ e :: visited) hstop hsorted (by simp)).mp hsame
      have hlength := congrArg List.length heq
      simp only [List.cons_append, List.length_cons, List.length_append] at hlength
      omega
    obtain ⟨it', hnext, hreads⟩ := Reads.next (h : Reads m it (e :: (visited ++ rest)))
    have hless : visited.length < rounds := by
      rw [List.length_cons] at hrounds
      omega
    have hrest := ih (before ++ [e]) hreads (by simpa using hsorted) hless
    rw [SortedMapIterator.keysUntil, if_neg hnot, h.get_eq]
    simp [hnext, hrest]

/-! ### The operations -/

theorem holds_empty : Holds (empty : SortedMap κ ν) PracticeApps.SortedMap.empty :=
  ArraySortedMap.holds_empty

theorem Holds.size_eq (h : Holds m s) : m.size = s.entries.length := by
  cases m with
  | array a => exact congrArg List.length (ArraySortedMap.Holds.entries h)
  | tree t => exact TreeSortedMap.Holds.size_eq h

theorem Holds.isEmpty_eq (h : Holds m s) : m.isEmpty = s.entries.isEmpty := by
  cases m with
  | array a =>
    have hentries := ArraySortedMap.Holds.entries h
    unfold isEmpty
    dsimp only
    unfold ArraySortedMap.isEmpty ArraySortedMap.size
    rw [hentries, Bool.eq_iff_iff]
    simp
  | tree t => exact TreeSortedMap.Holds.isEmpty_eq h

theorem Holds.contains_eq (h : Holds m s) (key : κ) : m.contains key = s.contains key := by
  cases m with
  | array a => exact ArraySortedMap.Holds.contains_eq h key
  | tree t => exact TreeSortedMap.Holds.contains_eq h key

theorem Holds.findIndex_eq (h : Holds m s) (key : κ) :
    m.findIndex key = s.entries.findIdx? fun e => decide (e.1 = key) := by
  cases m with
  | array a => exact ArraySortedMap.Holds.findIndex_eq h key
  | tree t => exact TreeSortedMap.Holds.findIndex_eq h key

theorem Holds.begin_reads (h : Holds m s) : Reads m m.begin s.entries := by
  cases m with
  | array a => exact ⟨rfl, Nat.zero_le _, ArraySortedMap.Holds.entries h⟩
  | tree t => exact TreeSortedMap.Holds.begin_reads h

omit [LinearOrder κ] in
theorem endOf_reads (m : SortedMap κ ν) : Reads m m.endOf [] := by
  cases m with
  | array a => exact ⟨rfl, le_rfl, List.drop_length⟩
  | tree t => exact LlrbNodeIterator.reads_end

theorem Holds.lowerBound_reads (h : Holds m s) (key : κ) :
    Reads m (m.lowerBound key) (s.lowerBound key) := by
  cases m with
  | array a =>
    refine ⟨rfl, List.findIdx_le_length, ?_⟩
    rw [PracticeApps.SortedMap.lowerBound_eq]
    exact ArraySortedMap.Holds.drop_lowerBound h key
  | tree t => exact TreeSortedMap.Holds.lowerBound_reads h key

theorem Holds.max_reads (h : Holds m s) : Reads m m.max s.entries.getLast?.toList := by
  cases m with
  | array a =>
    have hentries := ArraySortedMap.Holds.entries h
    unfold max
    dsimp only
    unfold ArraySortedMap.max ArraySortedMap.isEmpty ArraySortedMap.size
    rw [← hentries]
    cases hlast : a.array.getLast? with
    | none =>
      have hnil := List.getLast?_eq_none_iff.mp hlast
      simp [Reads, hnil]
    | some e =>
      obtain ⟨front, hfront⟩ := List.getLast?_eq_some_iff.mp hlast
      simp [Reads, hfront]
  | tree t => exact TreeSortedMap.Holds.max_reads h

theorem Holds.find_reads (h : Holds m s) (key : κ) :
    Reads m (m.find key) (s.startingAt key) := by
  cases m with
  | array a => exact ⟨rfl, List.findIdx_le_length, ArraySortedMap.Holds.drop_find h key⟩
  | tree t => exact TreeSortedMap.Holds.find_reads h key

theorem Holds.get_eq (h : Holds m s) (key : κ) : m.get key = s.find? key := by
  have hreads := h.find_reads key
  have hsplit := List.takeWhile_append_dropWhile
    (p := fun e => !decide (e.1 = key)) (l := s.entries)
  have hsorted := s.sorted
  rw [← hsplit] at hsorted
  have hsame := hreads.isSame_iff _ s.entries (endOf_reads m) hsorted
    (hsplit.trans (List.append_nil _).symm)
  unfold get
  rw [PracticeApps.SortedMap.find?_eq_startingAt, hreads.get_eq]
  by_cases hend : s.startingAt key = []
  · rw [if_pos (hsame.mpr hend), hend]
    rfl
  · rw [if_neg (mt hsame.mp hend)]

theorem Holds.find_get (h : Holds m s) (key : κ) :
    (m.find key).get = (s.find? key).map fun v => (key, v) := by
  rw [(h.find_reads key).get_eq, PracticeApps.SortedMap.head?_startingAt]

/-- Between a key and one above it. -/
theorem Holds.keysIn_eq (h : Holds m s) (startKey endKey : κ) {rounds : ℕ}
    (hrounds : s.entries.length < rounds) :
    SortedMapIterator.keysUntil (m.keysIn startKey endKey).2 rounds (m.keysIn startKey endKey).1 =
      some ((s.entries.filter fun e => decide (startKey ≤ e.1 ∧ e.1 < endKey)).map Prod.fst) := by
  unfold keysIn
  by_cases hless : startKey < endKey
  · rw [if_pos (compare_lt_iff_lt.mpr hless)]
    have hstart := h.lowerBound_reads startKey
    have hstop := h.lowerBound_reads endKey
    rw [PracticeApps.SortedMap.lowerBound_eq] at hstart hstop
    have hsorted := s.sorted.filter fun e => decide (startKey ≤ e.1)
    rw [PracticeApps.SortedMap.filter_between s.sorted hless.le] at hstart hsorted
    have hlength := List.length_filter_le (fun e => decide (startKey ≤ e.1 ∧ e.1 < endKey)) s.entries
    exact Reads.keysUntil_eq [] _ hstart hstop hsorted (by omega)
  · rw [if_neg (mt compare_lt_iff_lt.mp hless)]
    have hnone : (s.entries.filter fun e => decide (startKey ≤ e.1 ∧ e.1 < endKey)) = [] := by
      rw [List.filter_eq_nil_iff]
      intro e _
      simpa using fun hle => (not_lt.mp hless).trans hle
    have hend := endOf_reads m
    rw [hnone]
    exact Reads.keysUntil_eq [] [] hend hend .nil (by simp; omega)

/- The tree that the array becomes. -/
theorem create_holds {t : TreeSortedMap κ ν} (es : List (κ × ν)) (h : t.Holds s)
    (hsorted : (s.entries ++ es).Pairwise fun a b => a.1 < b.1)
    (hfew : (s.entries ++ es).length < 2 ^ 31) :
    ∃ t' s', es.foldlM (fun m e => m.insert e.1 e.2) t = some t' ∧ t'.Holds s' ∧
      s'.entries = s.entries ++ es := by
  induction es generalizing t s with
  | nil => exact ⟨t, s, rfl, h, by simp⟩
  | cons e es ih =>
    have hlast := PracticeApps.SortedMap.entries_insert_last e.2
      (PracticeApps.SortedMap.below_above hsorted).1
    have hall : (s.insert e.1 e.2).entries ++ es = s.entries ++ e :: es := by
      rw [hlast, List.append_assoc]
      rfl
    rw [← hall] at hsorted hfew
    have hone : (s.insert e.1 e.2).entries.length < 2 ^ 31 := by
      rw [List.length_append] at hfew
      omega
    obtain ⟨t', hinsert, ht'⟩ := h.insert e.1 e.2 hone
    obtain ⟨t'', s', hrest, ht'', hentries⟩ := ih ht' hsorted hfew
    refine ⟨t'', s', ?_, ht'', ?_⟩
    · rw [List.foldlM_cons, hinsert]
      exact hrest
    · rw [hentries, hlast]
      simp

theorem Holds.insert [DecidableEq ν] (h : Holds m s) (key : κ) (value : ν)
    (hfew : (s.insert key value).entries.length < 2 ^ 31) :
    ∃ m', m.insert key value = some m' ∧ Holds m' (s.insert key value) := by
  unfold SortedMap.insert
  cases m with
  | array a =>
    dsimp only
    by_cases hfull : kFixedSize ≤ a.size
    · rw [if_pos hfull]
      have harray := ArraySortedMap.Holds.entries h
      have hsmall : s.entries.length < 2 ^ 31 := by
        have hfixed := ArraySortedMap.Holds.small h
        rw [harray] at hfixed
        exact Nat.lt_of_le_of_lt hfixed (by decide)
      obtain ⟨t, s', hcreate, ht, hentries⟩ := create_holds s.entries TreeSortedMap.holds_empty
        (by simpa [PracticeApps.SortedMap.empty] using s.sorted) hsmall
      have ht : t.Holds s := ⟨ht.balanced, hsmall, ht.entries.trans hentries⟩
      obtain ⟨t', hinsert, ht'⟩ := ht.insert key value hfew
      refine ⟨.tree t', ?_, ht'⟩
      unfold TreeSortedMap.create
      rw [harray, hcreate, Option.bind_some, hinsert, Option.map_some]
    · rw [if_neg hfull]
      obtain ⟨a', hinsert, ha'⟩ := ArraySortedMap.Holds.insert h (not_le.mp hfull) key value
      exact ⟨.array a', by rw [hinsert, Option.map_some], ha'⟩
  | tree t =>
    obtain ⟨t', hinsert, ht'⟩ := TreeSortedMap.Holds.insert h key value hfew
    dsimp only
    exact ⟨.tree t', by rw [hinsert, Option.map_some], ht'⟩

theorem Holds.erase (h : Holds m s) (key : κ) :
    ∃ m', m.erase key = some m' ∧ Holds m' (s.erase key) := by
  unfold SortedMap.erase
  cases m with
  | array a =>
    obtain ⟨a', herase, ha'⟩ := ArraySortedMap.Holds.erase h key
    dsimp only
    exact ⟨.array a', by rw [herase, Option.map_some], ha'⟩
  | tree t =>
    obtain ⟨t', herase, ht'⟩ := TreeSortedMap.Holds.erase h key
    dsimp only
    rw [herase, Option.map_some]
    cases hempty : t'.isEmpty with
    | false => exact ⟨.tree t', by simp, ht'⟩
    | true =>
      refine ⟨empty, by simp, ?_⟩
      have hnone : (s.erase key).entries = [] := by simpa [ht'.isEmpty_eq] using hempty
      exact ⟨hnone.symm, Nat.zero_le _⟩

theorem Holds.change [DecidableEq ν] (h : Holds m s) (c : κ × Option ν)
    (hfew : (s.update c).entries.length < 2 ^ 31) :
    ∃ m', m.change c = some m' ∧ Holds m' (s.update c) := by
  obtain ⟨key, value⟩ := c
  cases value with
  | some value => exact h.insert key value hfew
  | none => exact h.erase key

theorem run_holds [DecidableEq ν] (h : Holds m s) {cs : List (κ × Option ν)}
    (hfew : s.entries.length + cs.length < 2 ^ 31) :
    ∃ m', cs.foldlM change m = some m' ∧ Holds m' (s.updates cs) := by
  induction cs generalizing m s with
  | nil => exact ⟨m, rfl, h⟩
  | cons c cs ih =>
    have hone := s.length_update_le c
    rw [List.length_cons] at hfew
    obtain ⟨m', hchange, hm'⟩ := h.change c (by omega)
    obtain ⟨m'', hrest, hm''⟩ := ih hm' (by omega)
    refine ⟨m'', ?_, hm''⟩
    rw [List.foldlM_cons, hchange]
    exact hrest

/-- Reading a map is reading a sorted map. -/
structure Agrees (m : SortedMap κ ν) (s : PracticeApps.SortedMap κ ν) : Prop where
  size : m.size = s.entries.length
  isEmpty : m.isEmpty = s.entries.isEmpty
  contains : ∀ key, m.contains key = s.contains key
  get : ∀ key, m.get key = s.find? key
  find : ∀ key, (m.find key).get = (s.find? key).map fun v => (key, v)
  findIndex : ∀ key, m.findIndex key = s.entries.findIdx? fun e => decide (e.1 = key)
  lowerBound : ∀ key steps, (m.lowerBound key).entryAt steps = (s.lowerBound key)[steps]?
  begin : ∀ steps, m.begin.entryAt steps = s.entries[steps]?
  min : m.min.get = s.entries.head?
  max : m.max.get = s.entries.getLast?
  keysIn : ∀ startKey endKey rounds, s.entries.length < rounds →
    SortedMapIterator.keysUntil (m.keysIn startKey endKey).2 rounds (m.keysIn startKey endKey).1 =
      some ((s.entries.filter fun e => decide (startKey ≤ e.1 ∧ e.1 < endKey)).map Prod.fst)

theorem Holds.agrees (h : Holds m s) : Agrees m s where
  size := h.size_eq
  isEmpty := h.isEmpty_eq
  contains := h.contains_eq
  get := h.get_eq
  find := h.find_get
  findIndex := h.findIndex_eq
  lowerBound key steps := (h.lowerBound_reads key).entryAt_eq steps
  begin steps := h.begin_reads.entryAt_eq steps
  min := h.begin_reads.get_eq
  max := by
    rw [h.max_reads.get_eq]
    cases s.entries.getLast? <;> rfl
  keysIn startKey endKey _ hrounds := h.keysIn_eq startKey endKey hrounds

end SortedMap

end Immutable
end PracticeApps.Firestore
