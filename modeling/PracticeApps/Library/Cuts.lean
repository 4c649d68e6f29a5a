import Mathlib.Algebra.BigOperators.Group.Finset.Basic
import Mathlib.Algebra.BigOperators.Ring.Finset
import Mathlib.Algebra.Order.BigOperators.Group.Finset
import Mathlib.Order.Interval.Finset.Nat

/-!
# Regions, cuts and tilings

A region is a finite set of weighted cells, and a cut along a coordinate takes
it apart into the cells up to a bound and those beyond. A list of regions tiles
a region if each of its cells lies in exactly one of them and no other cell in
any; cutting one of the regions keeps that, and the masses add up.
-/

namespace PracticeApps.Cuts

variable {C : Type}

/-! ### Mass -/

def mass (w : C → ℕ) (R : Finset C) : ℕ := ∑ c ∈ R, w c

def below (f : C → ℕ) (d : ℕ) (R : Finset C) : Finset C := R.filter fun c => f c ≤ d

def above (f : C → ℕ) (d : ℕ) (R : Finset C) : Finset C := R.filter fun c => d < f c

/- The mass of the cells at one coordinate. -/
def slice (w : C → ℕ) (f : C → ℕ) (R : Finset C) (x : ℕ) : ℕ := mass w (R.filter fun c => f c = x)

variable {w : C → ℕ} {f : C → ℕ} {d : ℕ} {R : Finset C}

theorem mem_below {c : C} : c ∈ below f d R ↔ c ∈ R ∧ f c ≤ d := Finset.mem_filter

theorem mem_above {c : C} : c ∈ above f d R ↔ c ∈ R ∧ d < f c := Finset.mem_filter

theorem mass_below_add_above : mass w (below f d R) + mass w (above f d R) = mass w R := by
  have hnot : above f d R = R.filter fun c => ¬ f c ≤ d := by
    unfold above
    exact Finset.filter_congr fun c _ => not_le.symm
  rw [hnot]
  exact Finset.sum_filter_add_sum_filter_not R _ w

theorem mass_eq_zero_iff : mass w R = 0 ↔ ∀ c ∈ R, w c = 0 := Finset.sum_eq_zero_iff

/-- The mass up to a bound, slice by slice from below the region. -/
theorem mass_below_eq_sum {lo : ℕ} (hlo : ∀ c ∈ R, lo ≤ f c) :
    mass w (below f d R) = ∑ x ∈ Finset.Icc lo d, slice w f R x := by
  unfold slice mass
  have hmaps : ∀ c ∈ below f d R, f c ∈ Finset.Icc lo d := by
    intro c hc
    obtain ⟨hR, hle⟩ := mem_below.mp hc
    exact Finset.mem_Icc.mpr ⟨hlo c hR, hle⟩
  rw [← Finset.sum_fiberwise_of_maps_to hmaps]
  refine Finset.sum_congr rfl fun x hx => ?_
  refine Finset.sum_congr ?_ fun _ _ => rfl
  ext c
  simp only [below, Finset.mem_filter]
  constructor
  · rintro ⟨⟨hR, _⟩, hcx⟩
    exact ⟨hR, hcx⟩
  · rintro ⟨hR, hcx⟩
    exact ⟨⟨hR, hcx ▸ (Finset.mem_Icc.mp hx).2⟩, hcx⟩

theorem below_of_le (h : ∀ c ∈ R, f c ≤ d) : below f d R = R := Finset.filter_true_of_mem h

/-- Where a cut leaves mass below, and none of the mass could be cut off further down if all
of it is there, nothing is left above exactly if all mass is at one coordinate. -/
theorem above_eq_zero_iff {lo : ℕ} (hlo : ∀ c ∈ R, lo ≤ f c) (hpos : 0 < mass w (below f d R))
    (hstop : mass w (below f d R) = mass w R → d = lo ∨ mass w (below f (d - 1) R) = 0) :
    mass w (above f d R) = 0 ↔ ∃ x, ∀ c ∈ R, w c ≠ 0 → f c = x := by
  have hsplit := mass_below_add_above (w := w) (f := f) (d := d) (R := R)
  constructor
  · intro hempty
    refine ⟨d, fun c hc hw => ?_⟩
    have hle : f c ≤ d := by
      by_contra hgt
      exact hw (mass_eq_zero_iff.mp hempty c (mem_above.mpr ⟨hc, by omega⟩))
    have hge : d ≤ f c := by
      rcases hstop (by omega) with heq | hzero
      · exact heq ▸ hlo c hc
      · by_contra hlt
        exact hw (mass_eq_zero_iff.mp hzero c (mem_below.mpr ⟨hc, by omega⟩))
    omega
  · rintro ⟨x, hx⟩
    have hfound : ∃ c ∈ below f d R, w c ≠ 0 := by
      by_contra hnone
      push Not at hnone
      exact hpos.ne' (mass_eq_zero_iff.mpr hnone)
    obtain ⟨c, hc, hw⟩ := hfound
    obtain ⟨hR, hle⟩ := mem_below.mp hc
    rw [mass_eq_zero_iff]
    intro c' hc'
    obtain ⟨hR', hlt⟩ := mem_above.mp hc'
    by_contra hw'
    have := hx c hR hw
    have := hx c' hR' hw'
    omega

/-- A weighted mean, rounded down, lies between two values that have a weight. -/
theorem mean_between {g : C → ℕ} {v : ℕ} (hpos : 0 < mass w R)
    (hv : (∑ c ∈ R, w c * g c) / mass w R = v) :
    (∃ c ∈ R, w c ≠ 0 ∧ g c ≤ v) ∧ ∃ c ∈ R, w c ≠ 0 ∧ v ≤ g c := by
  rw [Nat.div_eq_iff hpos] at hv
  obtain ⟨hlow, hhigh⟩ := hv
  constructor
  · by_contra hnone
    push Not at hnone
    have hall : ∑ c ∈ R, w c * (v + 1) ≤ ∑ c ∈ R, w c * g c := by
      refine Finset.sum_le_sum fun c hc => ?_
      by_cases hw : w c = 0
      · rw [hw, Nat.zero_mul, Nat.zero_mul]
      · exact Nat.mul_le_mul_left _ (hnone c hc hw)
    rw [← Finset.sum_mul, Nat.mul_comm, Nat.add_mul, Nat.one_mul] at hall
    unfold mass at hpos hhigh
    omega
  · by_contra hnone
    push Not at hnone
    have hall : ∑ c ∈ R, w c * (g c + 1) ≤ ∑ c ∈ R, w c * v := by
      refine Finset.sum_le_sum fun c hc => ?_
      by_cases hw : w c = 0
      · rw [hw, Nat.zero_mul, Nat.zero_mul]
      · exact Nat.mul_le_mul_left _ (hnone c hc hw)
    rw [← Finset.sum_mul, Nat.mul_comm] at hall
    simp only [Nat.mul_add, Nat.mul_one, Finset.sum_add_distrib] at hall
    unfold mass at hpos hlow
    omega

/-! ### Tilings -/

variable [DecidableEq C]

/-- Where the weight of a cell is how often it is hit, the mass of a region is how often the
region is. -/
theorem mass_tally {P : Type} (cell : P → C) (ps : List P)
    (hw : ∀ c ∈ R, w c = ps.countP fun p => decide (cell p = c)) :
    mass w R = ps.countP fun p => decide (cell p ∈ R) := by
  have hsum : mass w R = ∑ c ∈ R, ps.countP fun p => decide (cell p = c) :=
    Finset.sum_congr rfl hw
  rw [hsum]
  clear hsum hw
  induction ps with
  | nil => simp
  | cons p ps ih =>
    simp only [List.countP_cons, Finset.sum_add_distrib, ih, decide_eq_true_eq,
      Finset.sum_ite_eq]

/-- Each cell of the root lies in exactly one of the regions, no other cell in any. -/
def Tiles (root : Finset C) (regions : List (Finset C)) : Prop :=
  ∀ c, regions.countP (fun R => decide (c ∈ R)) = if c ∈ root then 1 else 0

variable {root : Finset C} {regions regions' : List (Finset C)}

theorem tiles_singleton : Tiles root [root] := by
  intro c
  by_cases hc : c ∈ root <;> simp [hc]

theorem Tiles.perm (h : Tiles root regions) (hperm : regions'.Perm regions) :
    Tiles root regions' := by
  intro c
  rw [hperm.countP_eq]
  exact h c

theorem Tiles.subset (h : Tiles root regions) : ∀ R ∈ regions, R ⊆ root := by
  intro R hR c hc
  by_contra hout
  have hcount := h c
  rw [if_neg hout, List.countP_eq_zero] at hcount
  exact hcount R hR (by simpa using hc)

/-- Cutting the first region of a tiling. -/
theorem Tiles.cut (f : C → ℕ) (d : ℕ) (h : Tiles root (R :: regions)) :
    Tiles root (below f d R :: above f d R :: regions) := by
  intro c
  rw [← h c]
  simp only [List.countP_cons, mem_below, mem_above]
  by_cases hR : c ∈ R
  · by_cases hd : f c ≤ d
    · simp [hR, hd, not_lt.mpr hd]
    · simp [hR, hd, not_le.mp hd]
  · simp [hR]

/-- The cells of the regions with their multiplicities. -/
theorem sum_mass {U : Finset C} (h : ∀ R ∈ regions, R ⊆ U) :
    (regions.map (mass w)).sum = ∑ c ∈ U, regions.countP (fun R => decide (c ∈ R)) * w c := by
  induction regions with
  | nil => simp
  | cons R regions ih =>
    have hR : mass w R = ∑ c ∈ U, (if c ∈ R then 1 else 0) * w c := by
      unfold mass
      simp only [ite_mul, one_mul, zero_mul]
      rw [Finset.sum_ite_mem, Finset.inter_eq_right.mpr (h R List.mem_cons_self)]
    have hrest := ih fun S hS => h S (List.mem_cons_of_mem R hS)
    rw [List.map_cons, List.sum_cons, hR, hrest, ← Finset.sum_add_distrib]
    refine Finset.sum_congr rfl fun c _ => ?_
    rw [List.countP_cons, add_comm, add_mul]
    simp only [decide_eq_true_eq]

/-- The regions of a tiling have the mass of the root. -/
theorem Tiles.mass_eq (h : Tiles root regions) : (regions.map (mass w)).sum = mass w root := by
  rw [sum_mass h.subset]
  unfold mass
  refine Finset.sum_congr rfl fun c hc => ?_
  rw [h c, if_pos hc, one_mul]

end PracticeApps.Cuts
