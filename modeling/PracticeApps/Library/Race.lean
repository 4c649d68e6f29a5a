import Mathlib.Algebra.Order.Group.Multiset
import Mathlib.Data.Multiset.Range
import Mathlib.Data.List.Induction

/-!
# Racing requests

Requests are numbered as they are issued. Each is answered once, or abandoned;
an answer waits until it is displayed, and what is displayed last stays. When
nothing is pending and nothing waits, every request that was not abandoned has
been displayed exactly once, in an order that may be any.
-/

namespace PracticeApps.Requests

variable {A : Type}

inductive Move (A : Type) where
  | issue
  | answer (request : ℕ) (a : A)
  | display (request : ℕ)
  | abandon (request : ℕ)
  deriving DecidableEq, Repr

structure Race (A : Type) where
  issued : ℕ
  pending : Multiset ℕ
  waiting : Multiset (ℕ × A)
  displayed : List (ℕ × A)
  abandoned : Multiset ℕ

def Race.start : Race A := ⟨0, 0, 0, [], 0⟩

/- The answer displayed last. -/
def Race.shown (s : Race A) : Option A := s.displayed.getLast?.map Prod.snd

inductive Step : Race A → Move A → Race A → Prop
  | issue (s : Race A) :
    Step s .issue { s with issued := s.issued + 1, pending := s.issued ::ₘ s.pending }
  | answer {s : Race A} {n : ℕ} {rest : Multiset ℕ} (a : A) (h : s.pending = n ::ₘ rest) :
    Step s (.answer n a) { s with pending := rest, waiting := (n, a) ::ₘ s.waiting }
  | display {s : Race A} {n : ℕ} {a : A} {rest : Multiset (ℕ × A)}
      (h : s.waiting = (n, a) ::ₘ rest) :
    Step s (.display n) { s with waiting := rest, displayed := s.displayed ++ [(n, a)] }
  | abandon {s : Race A} {n : ℕ} {rest : Multiset ℕ} (h : s.pending = n ::ₘ rest) :
    Step s (.abandon n) { s with pending := rest, abandoned := n ::ₘ s.abandoned }

inductive Run : List (Move A) → Race A → Prop
  | start : Run [] Race.start
  | next {ms : List (Move A)} {m : Move A} {s t : Race A} (h : Run ms s) (hm : Step s m t) :
    Run (ms ++ [m]) t

/-! ### Taking a numbered element out of a list -/

def pick {E : Type} (number : E → ℕ) (n : ℕ) : List E → Option (E × List E)
  | [] => none
  | e :: l =>
    if number e = n then some (e, l)
    else (pick number n l).map fun p => (p.1, e :: p.2)

theorem pick_some {E : Type} {number : E → ℕ} {n : ℕ} {l rest : List E} {e : E}
    (h : pick number n l = some (e, rest)) :
    number e = n ∧ (l : Multiset E) = e ::ₘ (rest : Multiset E) := by
  induction l generalizing rest with
  | nil => cases h
  | cons d l ih =>
    unfold pick at h
    split at h
    next hd =>
      cases h
      exact ⟨hd, rfl⟩
    · obtain ⟨⟨b, m⟩, hp, hb⟩ := Option.map_eq_some_iff.mp h
      cases hb
      obtain ⟨hn, hl⟩ := ih hp
      refine ⟨hn, ?_⟩
      rw [← Multiset.cons_coe, hl, ← Multiset.cons_coe, Multiset.cons_swap]

theorem exists_pick {E : Type} {number : E → ℕ} {n : ℕ} {l : List E} (h : n ∈ l.map number) :
    ∃ e rest, pick number n l = some (e, rest) := by
  induction l with
  | nil => cases h
  | cons d l ih =>
    unfold pick
    by_cases hd : number d = n
    · exact ⟨d, l, if_pos hd⟩
    · have hn : n ∈ l.map number := by
        rw [List.map_cons, List.mem_cons] at h
        exact h.resolve_left fun hnd => hd hnd.symm
      obtain ⟨e, rest, hpick⟩ := ih hn
      refine ⟨e, d :: rest, ?_⟩
      rw [if_neg hd, hpick, Option.map_some]

theorem pick_map {E F : Type} (number : F → ℕ) (f : E → F) (n : ℕ) (l : List E) :
    pick number n (l.map f) =
      (pick (fun e => number (f e)) n l).map fun p => (f p.1, p.2.map f) := by
  induction l with
  | nil => rfl
  | cons e l ih =>
    simp only [List.map_cons, pick, ih]
    split
    · rfl
    · simp [Function.comp_def]

theorem pick_sublist {E : Type} {number : E → ℕ} {n : ℕ} {l rest : List E} {e : E}
    (h : pick number n l = some (e, rest)) : rest.Sublist l := by
  induction l generalizing rest with
  | nil => cases h
  | cons d l ih =>
    unfold pick at h
    split at h
    · cases h
      exact List.sublist_cons_self _ _
    · obtain ⟨⟨b, m⟩, hp, hb⟩ := Option.map_eq_some_iff.mp h
      cases hb
      exact (ih hp).cons_cons d

/- Lists as bags: one element more at the end, or at the end of the first of two lists. -/
theorem cons_eq_concat {E : Type} {m : Multiset E} {l : List E} (h : m = l) (e : E) :
    e ::ₘ m = (l ++ [e] : List E) := by
  rw [h, Multiset.cons_coe, Multiset.coe_eq_coe]
  exact (List.perm_append_singleton _ _).symm

theorem cons_eq_middle {E : Type} {m : Multiset E} {l l' : List E} (h : m = (l ++ l' : List E))
    (e : E) : e ::ₘ m = (l ++ [e] ++ l' : List E) := by
  rw [h, Multiset.cons_coe, Multiset.coe_eq_coe, List.append_assoc, List.singleton_append]
  exact List.perm_middle.symm

/- The number of the element taken out leaves the numbers. -/
theorem map_eq_cons {E B : Type} (f : E → B) {l rest : List E} {e : E}
    (h : (l : Multiset E) = e ::ₘ (rest : Multiset E)) :
    (l.map f : Multiset B) = f e ::ₘ (rest.map f : List B) := by
  rw [← Multiset.map_coe, h, Multiset.map_cons, Multiset.map_coe]

/- The element taken out was there, and so was the rest. -/
theorem mem_taken {E : Type} {l rest : List E} {e : E}
    (h : (l : Multiset E) = e ::ₘ (rest : Multiset E)) : e ∈ l := by
  rw [← Multiset.mem_coe, h]
  exact Multiset.mem_cons_self _ _

theorem mem_of_mem_rest {E : Type} {l rest : List E} {e e' : E}
    (h : (l : Multiset E) = e ::ₘ (rest : Multiset E)) (he : e' ∈ rest) : e' ∈ l := by
  rw [← Multiset.mem_coe, h]
  exact Multiset.mem_cons_of_mem he

/-! ### No request is lost or counted twice -/

def Race.numbers (s : Race A) : Multiset ℕ :=
  s.pending + (s.waiting + s.displayed).map Prod.fst + s.abandoned

theorem step_numbers {s t : Race A} {m : Move A} (h : Step s m t)
    (hs : s.numbers = Multiset.range s.issued) : t.numbers = Multiset.range t.issued := by
  unfold Race.numbers at hs ⊢
  cases h with
  | issue =>
    rw [Multiset.range_succ, ← hs]
    simp only [Multiset.cons_add]
  | answer a h =>
    rw [← hs, h]
    simp only [Multiset.map_cons, Multiset.cons_add, Multiset.add_cons]
  | @display n a rest h =>
    -- the answer moves from the waiting ones to the end of the displayed ones
    have hmoved : rest + ((s.displayed ++ [(n, a)] : List (ℕ × A)) : Multiset (ℕ × A)) =
        s.waiting + s.displayed := by
      rw [h, ← Multiset.coe_add, Multiset.coe_singleton, ← Multiset.add_assoc, Multiset.add_comm _ {(n, a)},
        Multiset.singleton_add, Multiset.cons_add]
    rw [← hs, hmoved]
  | abandon h =>
    rw [← hs, h]
    simp only [Multiset.cons_add, Multiset.add_cons]

theorem run_numbers {ms : List (Move A)} {s : Race A} (h : Run ms s) :
    s.numbers = Multiset.range s.issued := by
  induction h with
  | start => rfl
  | next _ hm ih => exact step_numbers hm ih

/- Several requests abandoned at once. -/
theorem run_abandons {ms : List (Move A)} {s : Race A} (h : Run ms s) {ns : List ℕ}
    {rest : Multiset ℕ} (hns : s.pending = ↑ns + rest) :
    ∃ t : Race A, Run (ms ++ ns.map .abandon) t ∧ t.issued = s.issued ∧ t.pending = rest ∧
      t.waiting = s.waiting ∧ t.displayed = s.displayed := by
  induction ns generalizing ms s with
  | nil =>
    refine ⟨s, ?_, rfl, ?_, rfl, rfl⟩
    · rw [List.map_nil, List.append_nil]
      exact h
    · rw [hns, Multiset.coe_nil, Multiset.zero_add]
  | cons n ns ih =>
    have hn : s.pending = n ::ₘ (↑ns + rest) := by
      rw [hns, ← Multiset.cons_coe, Multiset.cons_add]
    obtain ⟨t, ht, hi, hp, hw, hd⟩ := ih (Run.next h (.abandon hn)) rfl
    refine ⟨t, ?_, hi, hp, hw, hd⟩
    rw [List.map_cons, List.append_cons]
    exact ht

/-! ### What the moves say about the state -/

def Move.isIssue : Move A → Bool
  | .issue => true
  | _ => false

def Move.displays : Move A → List ℕ
  | .display n => [n]
  | _ => []

def Move.answers (n : ℕ) : Move A → Option A
  | .answer m a => if m = n then some a else none
  | _ => none

def answerTo (n : ℕ) (ms : List (Move A)) : Option A := ms.findSome? (Move.answers n)

/- The request whose answer was displayed last. -/
def lastDisplayed (ms : List (Move A)) : Option ℕ := (ms.flatMap Move.displays).getLast?

theorem run_issued {ms : List (Move A)} {s : Race A} (h : Run ms s) :
    s.issued = ms.countP Move.isIssue := by
  induction h with
  | start => rfl
  | next _ hm ih =>
    rw [List.countP_append, ← ih]
    cases hm <;> rfl

theorem run_displays {ms : List (Move A)} {s : Race A} (h : Run ms s) :
    s.displayed.map Prod.fst = ms.flatMap Move.displays := by
  induction h with
  | start => rfl
  | next _ hm ih =>
    rw [List.flatMap_append, ← ih]
    cases hm <;> simp [Move.displays]

theorem run_answer_mem {ms : List (Move A)} {s : Race A} (h : Run ms s) {n : ℕ} {a : A} :
    Move.answer n a ∈ ms ↔ (n, a) ∈ s.waiting + s.displayed := by
  induction h with
  | start => simp [Race.start]
  | next _ hm ih =>
    rw [List.mem_append, ih]
    cases hm with
    | issue => simp
    | answer b hb =>
      simp only [List.mem_singleton, Move.answer.injEq, Multiset.mem_add, Multiset.mem_cons,
        Prod.mk.injEq]
      tauto
    | display hb =>
      simp only [hb, List.mem_singleton, reduceCtorEq, or_false, Multiset.mem_add,
        Multiset.mem_cons, Multiset.mem_coe, List.mem_append]
      tauto
    | abandon hb => simp

theorem run_abandon_mem {ms : List (Move A)} {s : Race A} (h : Run ms s) {n : ℕ} :
    Move.abandon n ∈ ms ↔ n ∈ s.abandoned := by
  induction h with
  | start => simp [Race.start]
  | next _ hm ih =>
    rw [List.mem_append, ih]
    cases hm with
    | issue => simp
    | answer b hb => simp
    | display hb => simp
    | abandon hb =>
      simp only [List.mem_singleton, Move.abandon.injEq, Multiset.mem_cons]
      tauto

theorem run_answer_unique {ms : List (Move A)} {s : Race A} (h : Run ms s) {n : ℕ} {a b : A}
    (ha : Move.answer n a ∈ ms) (hb : Move.answer n b ∈ ms) : a = b := by
  rw [run_answer_mem h] at ha hb
  have hnodup : ((s.waiting + s.displayed).map Prod.fst).Nodup := by
    have hall : s.numbers.Nodup := by
      rw [run_numbers h]
      exact Multiset.nodup_range _
    exact Multiset.nodup_of_le
      ((Multiset.le_add_left _ _).trans (Multiset.le_add_right _ _)) hall
  have hpair := Multiset.inj_on_of_nodup_map hnodup _ ha _ hb rfl
  exact congrArg Prod.snd hpair

/- A request is answered once, so its answer is the one that is found first. -/
theorem run_answerTo {ms : List (Move A)} {s : Race A} (h : Run ms s) {n : ℕ} {a : A} :
    answerTo n ms = some a ↔ Move.answer n a ∈ ms := by
  have hfound : ∀ b, answerTo n ms = some b → Move.answer n b ∈ ms := by
    intro b hb
    obtain ⟨m, hm, hmb⟩ := List.exists_of_findSome?_eq_some hb
    cases m with
    | answer k c =>
      have hmb : (if k = n then some c else none) = some b := hmb
      split at hmb
      next hk =>
        cases hmb
        rw [← hk]
        exact hm
      · cases hmb
    | issue => cases hmb
    | display k => cases hmb
    | abandon k => cases hmb
  constructor
  · exact hfound a
  · intro ha
    cases hb : answerTo n ms with
    | none =>
      have hnone := List.findSome?_eq_none_iff.mp hb _ ha
      simp [Move.answers] at hnone
    | some b => rw [run_answer_unique h (hfound b hb) ha]

theorem run_number_lt {ms : List (Move A)} {s : Race A} (h : Run ms s) {n : ℕ}
    (hn : n ∈ s.pending) : n < s.issued := by
  have hmem : n ∈ s.numbers :=
    Multiset.mem_add.mpr (Or.inl (Multiset.mem_add.mpr (Or.inl hn)))
  rw [run_numbers h] at hmem
  exact Multiset.mem_range.mp hmem

/-! ### When nothing is in flight -/

def Race.Quiet (s : Race A) : Prop := s.pending = 0 ∧ s.waiting = 0

/-- A request that was issued and not abandoned has its answer among the displayed. -/
theorem quiet_displayed {ms : List (Move A)} {s : Race A} (h : Run ms s) (hquiet : s.Quiet)
    {n : ℕ} (hn : n < s.issued) (hkept : Move.abandon n ∉ ms) : ∃ a, (n, a) ∈ s.displayed := by
  have hmem : n ∈ s.numbers := by
    rw [run_numbers h]
    exact Multiset.mem_range.mpr hn
  rw [run_abandon_mem h] at hkept
  unfold Race.numbers at hmem
  rw [hquiet.1, hquiet.2] at hmem
  simp only [Multiset.zero_add, Multiset.mem_add, hkept, or_false, Multiset.map_coe,
    Multiset.mem_coe, List.mem_map] at hmem
  obtain ⟨p, hp, hpn⟩ := hmem
  exact ⟨p.2, by rw [← hpn]; exact hp⟩

/-- Something is shown, and it looks like the answer to the last request exactly when the
request displayed last was answered with something that looks the same. -/
theorem quiet_shows_latest_iff {B : Type} (look : A → B) {ms : List (Move A)} {s : Race A}
    (h : Run ms s) (hquiet : s.Quiet) {latest : ℕ} (hlatest : s.issued = latest + 1)
    (hkept : Move.abandon latest ∉ ms) :
    ∃ shown, s.shown = some shown ∧
      ((answerTo latest ms).map look = some (look shown) ↔
        ∃ n, lastDisplayed ms = some n ∧
          (answerTo n ms).map look = (answerTo latest ms).map look) := by
  obtain ⟨a, ha⟩ := quiet_displayed h hquiet (by omega) hkept
  obtain ⟨⟨n, b⟩, hlast⟩ : ∃ p, s.displayed.getLast? = some p := by
    cases hl : s.displayed.getLast? with
    | none =>
      rw [List.getLast?_eq_none_iff.mp hl] at ha
      cases ha
    | some p => exact ⟨p, rfl⟩
  have hb : answerTo n ms = some b := by
    rw [run_answerTo h, run_answer_mem h]
    exact Multiset.mem_add.mpr (Or.inr (List.mem_of_getLast? hlast))
  have hn : lastDisplayed ms = some n := by
    unfold lastDisplayed
    rw [← run_displays h, List.getLast?_map, hlast]
    rfl
  refine ⟨b, ?_, ?_⟩
  · unfold Race.shown
    rw [hlast]
    rfl
  · rw [hn]
    constructor
    · intro hlook
      exact ⟨n, rfl, by rw [hb, Option.map_some, hlook]⟩
    · intro hlook
      obtain ⟨m, hm, hlook⟩ := hlook
      cases hm
      rw [← hlook, hb, Option.map_some]

/-- The last request has been answered, and its answer displayed. -/
theorem quiet_latest_answered {ms : List (Move A)} {s : Race A} (h : Run ms s)
    (hquiet : s.Quiet) {latest : ℕ} (hlatest : s.issued = latest + 1)
    (hkept : Move.abandon latest ∉ ms) : ∃ a, answerTo latest ms = some a := by
  obtain ⟨a, ha⟩ := quiet_displayed h hquiet (by omega) hkept
  refine ⟨a, ?_⟩
  rw [run_answerTo h, run_answer_mem h]
  exact Multiset.mem_add.mpr (Or.inr ha)

end PracticeApps.Requests
