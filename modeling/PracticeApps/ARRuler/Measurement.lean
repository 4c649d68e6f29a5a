import Mathlib.Algebra.Order.Field.Rat
import Mathlib.Data.List.Induction
import Mathlib.Data.Rat.Sqrt
import PracticeApps.ARRuler.ViewController

/-!
# The measurement shown

The dots are taken out of the scene at the touch after a measurement, the text
only when the next measurement is made. In between the scene has a text and not
the two dots it measured.
-/

namespace PracticeApps.ARRuler
open EventMachine

variable {F : Type} {P : FloatPlatform F}

def isDot (n : SCNNode F) : Bool :=
  match n.geometry with
  | .sphere => true
  | _ => false

/-- Each text in the scene is the distance between the two dots of the scene, which are
the two in `dotNodes`. -/
def NoStale (P : FloatPlatform F) (s : ViewController F) : Prop :=
  ∀ n ∈ s.scene, ∀ text, n.geometry = .text text → ∃ start finish,
    s.scene.filter isDot = [start, finish] ∧ s.dotNodes = [start, finish] ∧
      text = measured P start finish

def NoStaleAfter (P : FloatPlatform F) : Except Trap (ViewController F) → Prop
  | .ok s => NoStale P s
  | .error _ => False

def hits (touches : List (List (SCNVector3 F))) : ℕ := touches.countP fun results => results ≠ []

/- Nothing has been measured so far, or the last touch was the second hit of a measurement. -/
def Fresh (touches : List (List (SCNVector3 F))) : Prop :=
  hits touches < 2 ∨ (hits touches % 2 = 0 ∧ ∃ results, touches.getLast? = some results ∧ results ≠ [])

/-! ### The scene between two touches -/

/- What the identities of the nodes allow. -/
structure Nodes (s : ViewController F) : Prop where
  spheres : ∀ dot ∈ s.dotNodes, dot.geometry = .sphere
  created : ∀ dot ∈ s.dotNodes, dot.id < s.nextNode
  textCreated : s.textNode.id < s.nextNode
  apart : ∀ dot ∈ s.dotNodes, dot.id ≠ s.textNode.id

/- Fewer than two dots are placed; `old` is what is left of the last measurement. -/
structure Placing (old : List (SCNNode F)) (s : ViewController F) : Prop where
  nodes : Nodes s
  scene : s.scene = old ++ s.dotNodes
  few : s.dotNodes.length < 2

structure JustMeasured (P : FloatPlatform F) (s : ViewController F) : Prop where
  nodes : Nodes s
  scene : s.scene = s.dotNodes ++ [s.textNode]
  measured : ∃ start finish, s.dotNodes = [start, finish] ∧
    s.textNode.geometry = .text (measured P start finish)

/- A text left over from a measurement whose dots are gone. -/
structure Leftover (touches : List (List (SCNVector3 F))) (s : ViewController F) : Prop where
  placing : Placing [s.textNode] s
  text : ∃ text, s.textNode.geometry = .text text
  many : 2 ≤ hits touches
  parity : hits touches % 2 = s.dotNodes.length
  missed : s.dotNodes = [] → touches.getLast? = some []

inductive Phase (P : FloatPlatform F) (touches : List (List (SCNVector3 F)))
    (s : ViewController F) : Prop
  | none : Placing [] s → hits touches = s.dotNodes.length → Phase P touches s
  | leftover : Leftover touches s → Phase P touches s
  | measured : JustMeasured P s → 2 ≤ hits touches → hits touches % 2 = 0 →
      (∃ results, touches.getLast? = some results ∧ results ≠ []) → Phase P touches s

theorem launch_phase (origin : SCNVector3 F) : Phase P [] (launch origin) := by
  refine .none ⟨⟨?_, ?_, Nat.zero_lt_one, ?_⟩, rfl, Nat.zero_lt_two⟩ rfl
  · simp [launch]
  · simp [launch]
  · simp [launch]

/-! ### One touch -/

def dotAt (s : ViewController F) (hitResult : SCNVector3 F) : SCNNode F :=
  { id := s.nextNode, geometry := .sphere, position := hitResult }

theorem removeDots_eq (dots : List (SCNNode F)) (s : ViewController F) :
    dots.foldl (fun s dot => removeFromParentNode dot s) s =
      { s with scene := s.scene.filter fun n => n.id ∉ dots.map SCNNode.id } := by
  induction dots generalizing s with
  | nil => simp
  | cons dot dots ih =>
    rw [List.foldl_cons, ih]
    unfold removeFromParentNode
    dsimp only
    rw [List.filter_filter]
    refine congrArg (fun scene => { s with scene := scene }) (List.filter_congr (fun n _ => ?_))
    simp [Bool.and_comm]

theorem clearDots_eq {s : ViewController F} (h : JustMeasured P s) :
    clearDots s = { s with scene := [s.textNode], dotNodes := [] } := by
  have hdots : s.dotNodes.filter (fun n => n.id ∉ s.dotNodes.map SCNNode.id) = [] := by
    refine List.filter_eq_nil_iff.mpr (fun n hn => ?_)
    simpa using ⟨n, hn, rfl⟩
  have htext : s.textNode.id ∉ s.dotNodes.map SCNNode.id := by
    intro hmem
    obtain ⟨dot, hdot, hid⟩ := List.mem_map.mp hmem
    exact h.nodes.apart dot hdot hid
  have hkept : s.scene.filter (fun n => n.id ∉ s.dotNodes.map SCNNode.id) = [s.textNode] := by
    rw [h.scene, List.filter_append, hdots, List.nil_append,
      List.filter_cons_of_pos (by simpa using htext)]
    rfl
  unfold clearDots
  rw [removeDots_eq, hkept]

theorem addDot_first {s : ViewController F} {hitResult : SCNVector3 F} (hnone : s.dotNodes = []) :
    addDot P hitResult s = .ok { s with
      scene := s.scene ++ [dotAt s hitResult]
      dotNodes := [dotAt s hitResult]
      nextNode := s.nextNode + 1 } := by
  unfold addDot addChildNode dotAt
  simp [hnone]

theorem addDot_placing {old : List (SCNNode F)} {s : ViewController F} (hitResult : SCNVector3 F)
    (h : Placing old s) (hnone : s.dotNodes = []) :
    ∃ r, addDot P hitResult s = .ok r ∧ Placing old r ∧ r.dotNodes.length = 1 ∧
      r.textNode = s.textNode := by
  refine ⟨_, addDot_first hnone, ⟨⟨?_, ?_, ?_, ?_⟩, ?_, Nat.one_lt_two⟩, rfl, rfl⟩
  · simp [dotAt]
  · simp [dotAt]
  · exact Nat.lt_succ_of_lt h.nodes.textCreated
  · have := h.nodes.textCreated
    simp only [dotAt, List.mem_singleton, forall_eq]
    omega
  · rw [h.scene, hnone, List.append_nil]

theorem addDot_measured {old : List (SCNNode F)} {s : ViewController F} (hitResult : SCNVector3 F)
    (h : Placing old s) (hold : ∀ n ∈ old, n.id = s.textNode.id) (hone : s.dotNodes.length = 1) :
    ∃ r, addDot P hitResult s = .ok r ∧ JustMeasured P r := by
  obtain ⟨start, hstart⟩ := List.length_eq_one_iff.mp hone
  have hcreated := h.nodes.created start (by simp [hstart])
  have htext := h.nodes.textCreated
  have hapart := h.nodes.apart start (by simp [hstart])
  have hne : s.nextNode ≠ s.textNode.id := by omega
  have hgone : old.filter (fun n => n.id ≠ s.textNode.id) = [] := by
    refine List.filter_eq_nil_iff.mpr (fun n hn => ?_)
    simpa using hold n hn
  have hkept : (s.scene ++ [dotAt s hitResult]).filter (fun n => n.id ≠ s.textNode.id) =
      [start, dotAt s hitResult] := by
    rw [h.scene, hstart, List.filter_append, List.filter_append, hgone]
    simp [dotAt, hapart, hne]
  refine ⟨updateText P (measured P start (dotAt s hitResult)) hitResult
    { s with
      scene := s.scene ++ [dotAt s hitResult]
      dotNodes := [start, dotAt s hitResult]
      nextNode := s.nextNode + 1 }, ?_, ⟨?_, ?_, ?_⟩⟩
  · unfold addDot addChildNode
    simp only [hstart]
    rfl
  · have hdot : ∀ n ∈ [start, dotAt s hitResult], n.geometry = .sphere ∧ n.id < s.nextNode + 1 := by
      intro n hn
      rcases List.mem_cons.mp hn with rfl | hn
      · exact ⟨h.nodes.spheres n (by simp [hstart]), by omega⟩
      · rw [List.mem_singleton] at hn
        rw [hn]
        exact ⟨rfl, Nat.lt_succ_self _⟩
    refine ⟨fun n hn => (hdot n hn).1, fun n hn => Nat.lt_succ_of_lt (hdot n hn).2,
      Nat.lt_succ_self _, fun n hn => Nat.ne_of_lt (hdot n hn).2⟩
  · unfold updateText removeFromParentNode addChildNode
    dsimp only
    rw [hkept]
  · exact ⟨start, dotAt s hitResult, rfl, rfl⟩

theorem few_placing {old : List (SCNNode F)} {s : ViewController F} (h : Placing old s) :
    s.dotNodes = [] ∨ s.dotNodes.length = 1 := by
  have := h.few
  rcases hd : s.dotNodes with _ | ⟨dot, dots⟩
  · exact Or.inl rfl
  · rw [hd, List.length_cons] at this
    refine Or.inr ?_
    rw [List.length_cons]
    omega

theorem touchesBegan_miss {s : ViewController F} (h : s.dotNodes.length < 2) :
    touchesBegan P s [] = .ok s := by
  unfold touchesBegan
  rw [if_neg (Nat.not_le.mpr h)]
  rfl

theorem touchesBegan_hit {s : ViewController F} (h : s.dotNodes.length < 2) (hit : SCNVector3 F)
    (others : List (SCNVector3 F)) : touchesBegan P s (hit :: others) = addDot P hit s := by
  unfold touchesBegan
  rw [if_neg (Nat.not_le.mpr h)]
  rfl

/- After a measurement the dots go first. -/
theorem touchesBegan_measured {s : ViewController F} (results : List (SCNVector3 F))
    (h : JustMeasured P s) : touchesBegan P s results = touchesBegan P (clearDots s) results := by
  obtain ⟨start, finish, hdots, _⟩ := h.measured
  have hmany : 2 ≤ s.dotNodes.length := by simp [hdots]
  have hfew : ¬ 2 ≤ (clearDots s).dotNodes.length := Nat.not_le.mpr Nat.zero_lt_two
  unfold touchesBegan
  rw [if_pos hmany, if_neg hfew]

theorem hits_miss (touches : List (List (SCNVector3 F))) : hits (touches ++ [[]]) = hits touches := by
  simp [hits]

theorem hits_hit (touches : List (List (SCNVector3 F))) (hit : SCNVector3 F)
    (others : List (SCNVector3 F)) : hits (touches ++ [hit :: others]) = hits touches + 1 := by
  simp [hits]

theorem none_step {touches : List (List (SCNVector3 F))} {s : ViewController F}
    (results : List (SCNVector3 F)) (h : Placing [] s) (hhits : hits touches = s.dotNodes.length) :
    ∃ r, touchesBegan P s results = .ok r ∧ Phase P (touches ++ [results]) r := by
  cases results with
  | nil => exact ⟨s, touchesBegan_miss h.few, .none h (by rw [hits_miss, hhits])⟩
  | cons hit others =>
    rw [touchesBegan_hit h.few]
    have hcount := hits_hit touches hit others
    rcases few_placing h with hnone | hone
    · obtain ⟨r, hr, hplacing, hlength, _⟩ := addDot_placing hit h hnone
      refine ⟨r, hr, .none hplacing ?_⟩
      rw [hcount, hhits, hnone, hlength]
      rfl
    · obtain ⟨r, hr, hmeasured⟩ := addDot_measured hit h (by simp) hone
      exact ⟨r, hr, .measured hmeasured (by omega) (by omega) ⟨_, List.getLast?_concat, by simp⟩⟩

/- With a text left over: a dot, a measurement in its place, or a miss. -/
theorem leftover_step {touches : List (List (SCNVector3 F))} {s : ViewController F}
    (results : List (SCNVector3 F)) (h : Placing [s.textNode] s)
    (htext : ∃ text, s.textNode.geometry = .text text) (hmany : 2 ≤ hits touches)
    (hparity : hits touches % 2 = s.dotNodes.length) :
    ∃ r, touchesBegan P s results = .ok r ∧ Phase P (touches ++ [results]) r := by
  cases results with
  | nil =>
    refine ⟨s, touchesBegan_miss h.few, .leftover ⟨h, htext, ?_, ?_, fun _ => List.getLast?_concat⟩⟩
    · rw [hits_miss]
      exact hmany
    · rw [hits_miss]
      exact hparity
  | cons hit others =>
    rw [touchesBegan_hit h.few]
    have hcount := hits_hit touches hit others
    rcases few_placing h with hnone | hone
    · obtain ⟨r, hr, hplacing, hlength, hsame⟩ := addDot_placing hit h hnone
      rw [hnone, List.length_nil] at hparity
      rw [← hsame] at hplacing htext
      refine ⟨r, hr, .leftover ⟨hplacing, htext, by omega, by omega, ?_⟩⟩
      intro hempty
      rw [hempty] at hlength
      cases hlength
    · obtain ⟨r, hr, hmeasured⟩ := addDot_measured hit h (by simp) hone
      exact ⟨r, hr, .measured hmeasured (by omega) (by omega) ⟨_, List.getLast?_concat, by simp⟩⟩

theorem measured_step {touches : List (List (SCNVector3 F))} {s : ViewController F}
    (results : List (SCNVector3 F)) (h : JustMeasured P s) (hmany : 2 ≤ hits touches)
    (hparity : hits touches % 2 = 0) :
    ∃ r, touchesBegan P s results = .ok r ∧ Phase P (touches ++ [results]) r := by
  obtain ⟨start, finish, _, htext⟩ := h.measured
  rw [touchesBegan_measured results h, clearDots_eq h]
  refine leftover_step results ⟨⟨?_, ?_, h.nodes.textCreated, ?_⟩, rfl, Nat.zero_lt_two⟩
    ⟨_, htext⟩ hmany hparity
  · simp
  · simp
  · simp

theorem touch_phase {touches : List (List (SCNVector3 F))} {s : ViewController F}
    (results : List (SCNVector3 F)) (h : Phase P touches s) :
    ∃ r, touchesBegan P s results = .ok r ∧ Phase P (touches ++ [results]) r := by
  cases h with
  | none hplacing hhits => exact none_step results hplacing hhits
  | leftover h => exact leftover_step results h.placing h.text h.many h.parity
  | measured h hmany hparity _ => exact measured_step results h hmany hparity

/-! ### Runs -/

theorem run_phase (origin : SCNVector3 F) (touches : List (List (SCNVector3 F))) :
    ∃ s, exec (touchesBegan P) (launch origin) touches = .ok s ∧ Phase P touches s := by
  refine exec_safe (E := fun _ _ => True) (I := fun touches s => Phase P touches s)
    (launch_phase origin) ?_ (atEach_of_forall (fun _ _ => trivial) _ touches)
  intro es s e hs _
  exact touch_phase e hs

theorem phase_noStale_iff {touches : List (List (SCNVector3 F))} {s : ViewController F}
    (h : Phase P touches s) : NoStale P s ↔ Fresh touches := by
  cases h with
  | none h hhits =>
    refine iff_of_true ?_ (Or.inl (by rw [hhits]; exact h.few))
    intro n hn text htext
    rw [h.scene, List.nil_append] at hn
    rw [h.nodes.spheres n hn] at htext
    cases htext
  | leftover h =>
    obtain ⟨text, htext⟩ := h.text
    refine iff_of_false ?_ ?_
    · intro hstale
      obtain ⟨start, finish, _, hdots, _⟩ :=
        hstale s.textNode (by rw [h.placing.scene]; simp) text htext
      have hfew := h.placing.few
      rw [hdots] at hfew
      exact absurd hfew (Nat.lt_irrefl 2)
    · intro hfresh
      have hmany := h.many
      rcases hfresh with hfew | ⟨heven, results, hlast, hhit⟩
      · omega
      · have hnone : s.dotNodes = [] := List.length_eq_zero_iff.mp (h.parity.symm.trans heven)
        have hmissed := h.missed hnone
        rw [hlast] at hmissed
        exact hhit (Option.some.inj hmissed)
  | measured h hmany hparity hlast =>
    refine iff_of_true ?_ (Or.inr ⟨hparity, hlast⟩)
    obtain ⟨start, finish, hdots, hgeometry⟩ := h.measured
    have hspheres := h.nodes.spheres
    intro n hn text htext
    refine ⟨start, finish, ?_, hdots, ?_⟩
    · rw [h.scene, hdots, List.filter_append]
      rw [hdots] at hspheres
      simp [isDot, hgeometry, hspheres start, hspheres finish]
    · rw [h.scene, List.mem_append, List.mem_singleton] at hn
      rcases hn with hdot | rfl
      · rw [hspheres n hdot] at htext
        cases htext
      · rw [hgeometry] at htext
        exact (Geometry.text.inj htext).symm

theorem hits_concat_le (touches : List (List (SCNVector3 F))) (results : List (SCNVector3 F)) :
    hits (touches ++ [results]) ≤ hits touches + 1 := by
  cases results with
  | nil =>
    rw [hits_miss]
    omega
  | cons hit others => rw [hits_hit]

/- Two hits and no more: fresh only while the second one is the last touch. -/
theorem fresh_concat_iff (touches : List (List (SCNVector3 F))) (results : List (SCNVector3 F))
    (hbefore : hits touches ≤ 2) : Fresh (touches ++ [results]) ↔ hits touches < 2 := by
  have hlast : (touches ++ [results]).getLast? = some results := List.getLast?_concat
  unfold Fresh
  rw [hlast]
  cases results with
  | nil =>
    rw [hits_miss]
    refine or_iff_left ?_
    intro h
    obtain ⟨_, results, hsame, hne⟩ := h
    exact hne (Option.some.inj hsame).symm
  | cons hit others =>
    rw [hits_hit]
    constructor
    · intro h
      rcases h with hfew | ⟨heven, _⟩ <;> omega
    · intro hfew
      by_cases hone : hits touches = 1
      · exact Or.inr ⟨by omega, _, rfl, by simp⟩
      · exact Or.inl (by omega)

/- Every state on the way is fresh exactly when no touch follows the second hit. -/
theorem fresh_prefixes_iff (touches : List (List (SCNVector3 F))) :
    (∀ u, u <+: touches → Fresh u) ↔ hits touches.dropLast < 2 := by
  induction touches using List.reverseRecOn with
  | nil => simp [Fresh, hits]
  | append_singleton touches results ih =>
    simp only [List.prefix_concat_iff, forall_eq_or_imp]
    rw [ih, List.dropLast_concat]
    have hdrop : hits touches ≤ hits touches.dropLast + 1 := by
      rcases List.eq_nil_or_concat' touches with rfl | ⟨touches, results, rfl⟩
      · simp [hits]
      · rw [List.dropLast_concat]
        exact hits_concat_le touches results
    have hsub : hits touches.dropLast ≤ hits touches :=
      (List.dropLast_sublist touches).countP_le
    constructor
    · intro h
      obtain ⟨hfresh, hbefore⟩ := h
      exact (fresh_concat_iff touches results (by omega)).mp hfresh
    · intro hfew
      exact ⟨(fresh_concat_iff touches results (by omega)).mpr hfew, by omega⟩

/-- For every sequence of touches: no touch traps, the state reached has no stale measurement
exactly when fewer than two touches have hit or the last touch was the second hit of a
measurement, and no state on the way has one exactly when no touch follows the second hit. -/
theorem no_stale_measurement_iff (P : FloatPlatform F) (origin : SCNVector3 F)
    (touches : List (List (SCNVector3 F))) :
    (∃ s, exec (touchesBegan P) (launch origin) touches = .ok s ∧ (NoStale P s ↔ Fresh touches)) ∧
      (Accepted (NoStaleAfter P) (touchesBegan P) (launch origin) touches ↔
        hits touches.dropLast < 2) := by
  have hstate : ∀ u, ∃ s, exec (touchesBegan P) (launch origin) u = .ok s ∧
      (NoStale P s ↔ Fresh u) := by
    intro u
    obtain ⟨s, hs, hphase⟩ := run_phase (P := P) origin u
    exact ⟨s, hs, phase_noStale_iff hphase⟩
  refine ⟨hstate touches, ?_⟩
  rw [← fresh_prefixes_iff]
  refine forall_congr' (fun u => imp_congr_right (fun _ => ?_))
  obtain ⟨s, hs, hiff⟩ := hstate u
  rw [hs]
  exact hiff

/- Exact arithmetic, with the root of squares; whole numbers are printed with one place. -/
def exactPlatform : FloatPlatform ℚ where
  sub := (· - ·)
  add := (· + ·)
  pow := (· ^ ·)
  sqrt := Rat.sqrt
  abs := fun x => |x|
  hundredth := 1 / 100
  text := fun x => if x.den = 1 then toString x.num ++ ".0" else toString x

/- Two dots five apart, then a touch that hits nothing: the text stays, the dots do not. -/
theorem five_apart_then_miss :
    ∃ s, exec (touchesBegan exactPlatform) (launch ⟨0, 0, 0⟩)
        [[⟨0, 0, 0⟩], [⟨3, 4, 0⟩], []] = .ok s ∧
      s.scene = [⟨3, .text "5.0", ⟨3, 401 / 100, 0⟩⟩] ∧ ¬ NoStale exactPlatform s := by
  have hrun : exec (touchesBegan exactPlatform) (launch ⟨0, 0, 0⟩)
      [[⟨0, 0, 0⟩], [⟨3, 4, 0⟩], []] =
      .ok ⟨[⟨3, .text "5.0", ⟨3, 401 / 100, 0⟩⟩], [], ⟨3, .text "5.0", ⟨3, 401 / 100, 0⟩⟩, 4⟩ := by
    decide +kernel
  refine ⟨_, hrun, rfl, ?_⟩
  intro h
  obtain ⟨_, _, _, hdots, _⟩ := h _ List.mem_cons_self "5.0" rfl
  cases hdots

end PracticeApps.ARRuler
