import PracticeApps.ColorThief.MMCQ
import PracticeApps.Library.Cuts
import Mathlib.Algebra.BigOperators.Intervals

/-!
# One median cut

The loops of a box add up the mass of its cells. A box of two pixels or more is
cut along its widest channel; the lower half is never empty, and the upper one
is only if all pixels of the box agree on that channel.
-/

namespace PracticeApps.ColorThief.MMCQ
open Cuts

/-! ### Cells -/

/- Red, green and blue, five bits each. -/
abbrev Cell := ℕ × ℕ × ℕ

def coord : ColorChannel → Cell → ℕ
  | .r, c => c.1
  | .g, c => c.2.1
  | .b, c => c.2.2

def weight (histogram : Histogram) (c : Cell) : ℕ := histogram (makeColorIndexOf c.1 c.2.1 c.2.2)

def VBox.cells (vbox : VBox) : Finset Cell :=
  Finset.Icc vbox.rMin vbox.rMax ×ˢ Finset.Icc vbox.gMin vbox.gMax ×ˢ
    Finset.Icc vbox.bMin vbox.bMax

variable {histogram : Histogram} {vbox : VBox} {axis : ColorChannel}

theorem mem_cells {c : Cell} :
    c ∈ vbox.cells ↔ ∀ axis, vbox.lower axis ≤ coord axis c ∧ coord axis c ≤ vbox.upper axis := by
  simp only [VBox.cells, Finset.mem_product, Finset.mem_Icc]
  constructor
  · rintro ⟨hr, hg, hb⟩ axis
    cases axis with
    | r => exact hr
    | g => exact hg
    | b => exact hb
  · intro h
    exact ⟨h .r, h .g, h .b⟩

theorem upper_lt (vbox : VBox) (axis : ColorChannel) : vbox.upper axis < 32 := by
  cases axis with
  | r => exact vbox.rMax_lt
  | g => exact vbox.gMax_lt
  | b => exact vbox.bMax_lt

/-- No loop over a box leaves the histogram. -/
theorem makeColorIndexOf_lt {c : Cell} (hc : c ∈ vbox.cells) :
    makeColorIndexOf c.1 c.2.1 c.2.2 < 32768 := by
  have hr : c.1 < 32 := lt_of_le_of_lt (mem_cells.mp hc .r).2 (upper_lt vbox .r)
  have hg : c.2.1 < 32 := lt_of_le_of_lt (mem_cells.mp hc .g).2 (upper_lt vbox .g)
  have hb : c.2.2 < 32 := lt_of_le_of_lt (mem_cells.mp hc .b).2 (upper_lt vbox .b)
  unfold makeColorIndexOf signalBits
  simp only [Nat.shiftLeft_eq]
  omega

theorem cells_setUpper {d : ℕ} (h : d < vboxLength) (hd : d ≤ vbox.upper axis) :
    (vbox.setUpper d h axis).cells = below (coord axis) d vbox.cells := by
  ext c
  simp only [VBox.cells, mem_below, Finset.mem_product, Finset.mem_Icc]
  cases axis with
  | r => simp only [VBox.setUpper, VBox.upper, coord] at hd ⊢; omega
  | g => simp only [VBox.setUpper, VBox.upper, coord] at hd ⊢; omega
  | b => simp only [VBox.setUpper, VBox.upper, coord] at hd ⊢; omega

theorem cells_setLower {d : ℕ} (hd : vbox.lower axis ≤ d) :
    (vbox.setLower (d + 1) axis).cells = above (coord axis) d vbox.cells := by
  ext c
  simp only [VBox.cells, mem_above, Finset.mem_product, Finset.mem_Icc]
  cases axis with
  | r => simp only [VBox.setLower, VBox.lower, coord] at hd ⊢; omega
  | g => simp only [VBox.setLower, VBox.lower, coord] at hd ⊢; omega
  | b => simp only [VBox.setLower, VBox.lower, coord] at hd ⊢; omega

/-! ### Sums -/

theorem mem_makeRange {min max x : ℕ} : x ∈ makeRange min max ↔ min ≤ x ∧ x ≤ max := by
  unfold makeRange
  split
  · rw [List.mem_range'_1]
    omega
  · simp only [List.not_mem_nil, false_iff]
    omega

theorem sum_makeRange (f : ℕ → ℕ) (min max : ℕ) :
    ((makeRange min max).map f).sum = ∑ x ∈ Finset.Icc min max, f x := by
  have hempty : ¬ min ≤ max → max + 1 - min = 0 := by omega
  have hrange : makeRange min max = List.range' min (max + 1 - min) := by
    unfold makeRange
    split
    · rfl
    · rename_i h
      rw [hempty h]
      rfl
  rw [hrange, Nat.Icc_eq_range']
  rfl

theorem sumOver_eq (f : ℕ → ℕ → ℕ → ℕ) :
    vbox.sumOver f = ∑ c ∈ vbox.cells, f c.1 c.2.1 c.2.2 := by
  unfold VBox.sumOver VBox.cells VBox.rRange VBox.gRange VBox.bRange
  simp only [sum_makeRange, Finset.sum_product]

theorem getCount_eq : vbox.getCount histogram = mass (weight histogram) vbox.cells := sumOver_eq _

/-- Inside the loop over the axis. -/
theorem axisSum_eq {x : ℕ} (hx : x ∈ axisRange vbox axis) :
    axisSum histogram vbox axis x = slice (weight histogram) (coord axis) vbox.cells x := by
  obtain ⟨hlow, hhigh⟩ := mem_makeRange.mp hx
  cases axis with
  | r =>
    have hslice : vbox.cells.filter (fun c => coord .r c = x) =
        {x} ×ˢ Finset.Icc vbox.gMin vbox.gMax ×ˢ Finset.Icc vbox.bMin vbox.bMax := by
      ext c
      rw [Finset.mem_filter]
      simp only [VBox.cells, coord, VBox.lower, VBox.upper, Finset.mem_product, Finset.mem_Icc,
        Finset.mem_singleton] at hlow hhigh ⊢
      omega
    unfold slice mass
    rw [hslice, Finset.sum_product, Finset.sum_singleton, Finset.sum_product]
    simp only [axisSum, VBox.gRange, VBox.bRange, sum_makeRange, weight]
  | g =>
    have hslice : vbox.cells.filter (fun c => coord .g c = x) =
        Finset.Icc vbox.rMin vbox.rMax ×ˢ {x} ×ˢ Finset.Icc vbox.bMin vbox.bMax := by
      ext c
      rw [Finset.mem_filter]
      simp only [VBox.cells, coord, VBox.lower, VBox.upper, Finset.mem_product, Finset.mem_Icc,
        Finset.mem_singleton] at hlow hhigh ⊢
      omega
    unfold slice mass
    rw [hslice, Finset.sum_product]
    simp only [axisSum, VBox.rRange, VBox.bRange, sum_makeRange, weight, Finset.sum_product,
      Finset.sum_singleton]
  | b =>
    have hslice : vbox.cells.filter (fun c => coord .b c = x) =
        Finset.Icc vbox.rMin vbox.rMax ×ˢ Finset.Icc vbox.gMin vbox.gMax ×ˢ {x} := by
      ext c
      rw [Finset.mem_filter]
      simp only [VBox.cells, coord, VBox.lower, VBox.upper, Finset.mem_product, Finset.mem_Icc,
        Finset.mem_singleton] at hlow hhigh ⊢
      omega
    unfold slice mass
    rw [hslice, Finset.sum_product]
    simp only [axisSum, VBox.rRange, VBox.gRange, sum_makeRange, weight, Finset.sum_product,
      Finset.sum_singleton]

/- The entry of `partialSum` at an index of the axis. -/
theorem accumulate_spec (sum : ℕ → ℕ) (lo n : ℕ) (hfit : lo + n ≤ 32) :
    (accumulate sum (List.range' lo n)).1 = ∑ x ∈ Finset.Ico lo (lo + n), sum x ∧
      (accumulate sum (List.range' lo n)).2.length = 32 ∧
      ∀ i, i < 32 → (accumulate sum (List.range' lo n)).2.getD i 0 =
        if lo ≤ i ∧ i < lo + n then ((∑ x ∈ Finset.Icc lo i, sum x : ℕ) : ℤ) else -1 := by
  induction n with
  | zero =>
    refine ⟨by simp [accumulate], by simp [accumulate, vboxLength, signalBits], ?_⟩
    intro i hi
    show (List.replicate 32 (-1 : ℤ)).getD i 0 = _
    rw [if_neg (by omega), List.getD_eq_getElem?_getD, List.getElem?_replicate, if_pos hi]
    rfl
  | succ n ih =>
    obtain ⟨htotal, hlength, hentry⟩ := ih (by omega)
    have hconcat : List.range' lo (n + 1) = List.range' lo n ++ [lo + n] := by
      rw [List.range'_concat, Nat.one_mul]
    have hstep : accumulate sum (List.range' lo (n + 1)) =
        ((accumulate sum (List.range' lo n)).1 + sum (lo + n),
          (accumulate sum (List.range' lo n)).2.set (lo + n)
            (((accumulate sum (List.range' lo n)).1 + sum (lo + n) : ℕ) : ℤ)) := by
      unfold accumulate
      rw [hconcat, List.foldl_append]
      rfl
    have hnext : (accumulate sum (List.range' lo n)).1 + sum (lo + n) =
        ∑ x ∈ Finset.Ico lo (lo + n + 1), sum x := by
      rw [htotal, Finset.sum_Ico_succ_top (by omega)]
    rw [hstep]
    refine ⟨hnext, by rw [List.length_set, hlength], ?_⟩
    intro i hi
    by_cases hlast : i = lo + n
    · subst hlast
      rw [if_pos (by omega), List.getD_eq_getElem?_getD, List.getElem?_set_self (by omega),
        Option.getD_some, hnext]
      rfl
    · rw [List.getD_eq_getElem?_getD, List.getElem?_set_ne (by omega),
        ← List.getD_eq_getElem?_getD, hentry i hi]
      by_cases hin : lo ≤ i ∧ i < lo + n
      · rw [if_pos hin, if_pos (by omega)]
      · rw [if_neg hin, if_neg (by omega)]

/-! ### The cut -/

/- What `cut` is given: the upTo up to each index of the axis, and that beyond it. -/
structure Sums (upTo : ℕ → ℕ) (first last total : ℕ) (partialSum lookAheadSum : List ℤ) : Prop where
  entry : ∀ i, i < 32 → partialSum.getD i 0 = if first ≤ i ∧ i ≤ last then (upTo i : ℤ) else -1
  ahead : ∀ i, first ≤ i → i ≤ last → lookAheadSum.getD i 0 = (total : ℤ) - upTo i
  whole : upTo last = total

section Cut
variable {upTo : ℕ → ℕ} {first last total : ℕ} {partialSum lookAheadSum : List ℤ}

theorem Sums.pos_iff (h : Sums upTo first last total partialSum lookAheadSum) {i : ℕ} (hi : i < 32) :
    0 < partialSum.getD i 0 ↔ (first ≤ i ∧ i ≤ last) ∧ 0 < upTo i := by
  rw [h.entry i hi]
  split <;> omega

theorem skipEmpty_ok (h : Sums upTo first last total partialSum lookAheadSum) (hbound : last < 32)
    (horder : first ≤ last) (htotal : 0 < total) (n : ℕ) (d2 : ℤ) (hle : d2 ≤ last)
    (hfuel : last - d2 < n) :
    ∃ d, skipEmpty partialSum n d2 = .ok d ∧ first ≤ d ∧ d ≤ last ∧ 0 < upTo d := by
  induction n generalizing d2 with
  | zero => omega
  | succ n ih =>
    unfold skipEmpty
    by_cases hskip : d2 < 0 ∨ partialSum.getD d2.toNat 0 ≤ 0
    · rw [if_pos hskip]
      have hlt : d2 < last := by
        by_contra hge
        have heq : d2.toNat = last := by omega
        have hpos := (h.pos_iff hbound).mpr ⟨⟨horder, le_rfl⟩, by rw [h.whole]; exact htotal⟩
        rw [heq] at hskip
        omega
      exact ih (d2 + 1) (by omega) (by omega)
    · rw [if_neg hskip]
      have hpos : 0 < partialSum.getD d2.toNat 0 := by omega
      obtain ⟨⟨hlo, hhi⟩, hmass⟩ := (h.pos_iff (by omega)).mp hpos
      exact ⟨d2.toNat, rfl, hlo, hhi, hmass⟩

/-- Where the second loop stops with everything below, there is nothing further down. -/
theorem backUp_spec (h : Sums upTo first last total partialSum lookAheadSum) (hbound : last < 32)
    (d : ℕ) (hlo : first ≤ d) (hhi : d ≤ last) (hpos : 0 < upTo d) :
    ∃ r, backUp partialSum lookAheadSum d (lookAheadSum.getD d 0) = r ∧ first ≤ r ∧ r ≤ last ∧
      0 < upTo r ∧ (upTo r = total → r = first ∨ upTo (r - 1) = 0) := by
  induction d with
  | zero => exact ⟨0, rfl, hlo, hhi, hpos, fun _ => Or.inl (by omega)⟩
  | succ d ih =>
    unfold backUp
    have hahead := h.ahead (d + 1) hlo hhi
    by_cases hback : lookAheadSum.getD (d + 1) 0 = 0 ∧ 0 < partialSum.getD d 0
    · rw [if_pos hback]
      obtain ⟨⟨hlo', hhi'⟩, hpos'⟩ := (h.pos_iff (by omega)).mp hback.2
      exact ih hlo' hhi' hpos'
    · rw [if_neg hback]
      refine ⟨d + 1, rfl, hlo, hhi, hpos, fun hall => ?_⟩
      have hstop : ¬ 0 < partialSum.getD d 0 := fun hd => hback ⟨by omega, hd⟩
      rw [h.pos_iff (by omega)] at hstop
      show d + 1 = first ∨ upTo d = 0
      omega

theorem firstGuess_le (first : ℕ) {i : ℕ} (hi : i ≤ last) : firstGuess first last i ≤ last := by
  unfold firstGuess
  dsimp only
  split
  · omega
  · have hsign : Int.sign 2 = 1 := rfl
    rw [Int.tdiv_eq_ediv, hsign]
    split <;> omega

theorem cut_ok (h : Sums upTo (vbox.lower axis) (vbox.upper axis) total partialSum lookAheadSum)
    (horder : vbox.lower axis ≤ vbox.upper axis) (htotal : 0 < total) :
    ∃ d, ∃ hd : d < vboxLength,
      cut axis vbox partialSum lookAheadSum total =
        .ok [vbox.setUpper d hd axis, vbox.setLower (d + 1) axis] ∧
      vbox.lower axis ≤ d ∧ d ≤ vbox.upper axis ∧ 0 < upTo d ∧
      (upTo d = total → d = vbox.lower axis ∨ upTo (d - 1) = 0) := by
  have hbound := upper_lt vbox axis
  have hmedian : ((total / 2 : ℕ) : ℤ) < partialSum.getD (vbox.upper axis) 0 := by
    rw [h.entry _ hbound, if_pos ⟨horder, le_rfl⟩, h.whole]
    omega
  unfold cut
  dsimp only
  rw [if_neg (by omega)]
  cases hfind : (makeRange (vbox.lower axis) (vbox.upper axis)).find?
      fun i => decide (((total / 2 : ℕ) : ℤ) < partialSum.getD i 0) with
  | none =>
    have hnone := List.find?_eq_none.mp hfind _ (mem_makeRange.mpr ⟨horder, le_rfl⟩)
    exact absurd (decide_eq_true hmedian) hnone
  | some i =>
    have hi := (mem_makeRange.mp (List.mem_of_find?_eq_some hfind)).2
    have hguess := firstGuess_le (vbox.lower axis) hi
    obtain ⟨d, hskip, hlo, hhi, hpos⟩ := skipEmpty_ok h hbound horder htotal
      (vboxLength - firstGuess (vbox.lower axis) (vbox.upper axis) i).toNat _ hguess
      (by show _ < ((((32 : ℕ) : ℤ) - _).toNat : ℤ); omega)
    obtain ⟨r, hback, hlo', hhi', hpos', hall⟩ := backUp_spec h hbound d hlo hhi hpos
    dsimp only
    rw [hskip]
    dsimp only
    rw [hback]
    have hr : r < vboxLength := by show r < 32; omega
    rw [dif_pos hr]
    exact ⟨r, hr, rfl, hlo', hhi', hpos', hall⟩

end Cut

/-! ### A box is cut -/

/- All counted pixels of the box agree on the channel. -/
def Flat (histogram : Histogram) (vbox : VBox) (axis : ColorChannel) : Prop :=
  ∃ x, ∀ c ∈ vbox.cells, weight histogram c ≠ 0 → coord axis c = x

theorem lower_le_upper (hcount : vbox.getCount histogram ≠ 0) (axis : ColorChannel) :
    vbox.lower axis ≤ vbox.upper axis := by
  rw [getCount_eq, Ne, mass_eq_zero_iff] at hcount
  push Not at hcount
  obtain ⟨c, hc, _⟩ := hcount
  have hboth := mem_cells.mp hc axis
  omega

theorem getVolume_pos (hcount : vbox.getCount histogram ≠ 0) : 0 < vbox.getVolume := by
  have hr := lower_le_upper hcount .r
  have hg := lower_le_upper hcount .g
  have hb := lower_le_upper hcount .b
  simp only [VBox.lower, VBox.upper] at hr hg hb
  unfold VBox.getVolume
  have hr' : (0 : ℤ) < vbox.rMax - vbox.rMin + 1 := by omega
  have hg' : (0 : ℤ) < vbox.gMax - vbox.gMin + 1 := by omega
  have hb' : (0 : ℤ) < vbox.bMax - vbox.bMin + 1 := by omega
  positivity

theorem widestColorChannel_ok (hcount : vbox.getCount histogram ≠ 0) :
    ∃ axis, vbox.widestColorChannel = .ok axis ∧
      ∀ other, vbox.upper other - vbox.lower other ≤ vbox.upper axis - vbox.lower axis := by
  have hr := lower_le_upper hcount .r
  have hg := lower_le_upper hcount .g
  have hb := lower_le_upper hcount .b
  simp only [VBox.lower, VBox.upper] at hr hg hb
  have horder : ¬ (vbox.rMax < vbox.rMin ∨ vbox.gMax < vbox.gMin ∨ vbox.bMax < vbox.bMin) := by
    omega
  unfold VBox.widestColorChannel
  rw [if_neg horder]
  dsimp only
  split
  · refine ⟨.r, rfl, fun other => ?_⟩
    cases other <;> simp only [VBox.lower, VBox.upper] <;> omega
  · split
    · refine ⟨.g, rfl, fun other => ?_⟩
      cases other <;> simp only [VBox.lower, VBox.upper] <;> omega
    · refine ⟨.b, rfl, fun other => ?_⟩
      cases other <;> simp only [VBox.lower, VBox.upper] <;> omega

/- The sums of `applyMedianCut` are the masses below and above. -/
theorem sums_ok (hcount : vbox.getCount histogram ≠ 0) (axis : ColorChannel) :
    (accumulate (axisSum histogram vbox axis) (axisRange vbox axis)).1 =
        vbox.getCount histogram ∧
      Sums (fun i => mass (weight histogram) (below (coord axis) i vbox.cells))
        (vbox.lower axis) (vbox.upper axis) (vbox.getCount histogram)
        (accumulate (axisSum histogram vbox axis) (axisRange vbox axis)).2
        (lookAhead (vbox.getCount histogram)
          (accumulate (axisSum histogram vbox axis) (axisRange vbox axis)).2) := by
  have horder := lower_le_upper hcount axis
  have hbound := upper_lt vbox axis
  have hrange : axisRange vbox axis =
      List.range' (vbox.lower axis) (vbox.upper axis + 1 - vbox.lower axis) := if_pos horder
  obtain ⟨htotal, hlength, hentry⟩ := accumulate_spec (axisSum histogram vbox axis)
    (vbox.lower axis) (vbox.upper axis + 1 - vbox.lower axis) (by omega)
  rw [← hrange] at htotal hlength hentry
  have hbelow : ∀ i, i ≤ vbox.upper axis →
      ∑ x ∈ Finset.Icc (vbox.lower axis) i, axisSum histogram vbox axis x =
        mass (weight histogram) (below (coord axis) i vbox.cells) := by
    intro i hi
    rw [mass_below_eq_sum fun c hc => (mem_cells.mp hc axis).1]
    refine Finset.sum_congr rfl fun x hx => axisSum_eq (mem_makeRange.mpr ?_)
    have := Finset.mem_Icc.mp hx
    omega
  have hwhole : mass (weight histogram) (below (coord axis) (vbox.upper axis) vbox.cells) =
      vbox.getCount histogram := by
    rw [below_of_le fun c hc => (mem_cells.mp hc axis).2, getCount_eq]
  have hentry' : ∀ i, i < 32 →
      (accumulate (axisSum histogram vbox axis) (axisRange vbox axis)).2.getD i 0 =
        if vbox.lower axis ≤ i ∧ i ≤ vbox.upper axis then
          ((mass (weight histogram) (below (coord axis) i vbox.cells) : ℕ) : ℤ) else -1 := by
    intro i hi
    rw [hentry i hi]
    by_cases hin : vbox.lower axis ≤ i ∧ i ≤ vbox.upper axis
    · rw [if_pos hin, if_pos (by omega), hbelow i hin.2]
    · rw [if_neg hin, if_neg (by omega)]
  refine ⟨?_, hentry', ?_, hwhole⟩
  · rw [htotal, ← hwhole, ← hbelow _ le_rfl]
    congr 1
    ext x
    simp only [Finset.mem_Ico, Finset.mem_Icc]
    omega
  · intro i hlo hhi
    have hat := hentry' i (by omega)
    rw [if_pos ⟨hlo, hhi⟩, List.getD_eq_getElem?_getD, List.getElem?_eq_getElem (by omega),
      Option.getD_some] at hat
    unfold lookAhead
    rw [List.getD_eq_getElem?_getD, List.getElem?_map, List.getElem?_eq_getElem (by omega),
      Option.map_some, Option.getD_some, hat, if_pos (by omega)]

/- What a cut of a box leaves behind. -/
structure CutInto (histogram : Histogram) (vbox : VBox) (axis : ColorChannel) (d : ℕ)
    (lower upper : VBox) : Prop where
  lower_cells : lower.cells = below (coord axis) d vbox.cells
  upper_cells : upper.cells = above (coord axis) d vbox.cells
  lower_count : lower.getCount histogram ≠ 0
  upper_count : upper.getCount histogram = 0 ↔ Flat histogram vbox axis

/-- A box of two pixels or more is cut along a widest channel, into a lower half that is not
empty and an upper one that is only if all its pixels agree on that channel. -/
theorem applyMedianCut_ok (hcount : 2 ≤ vbox.getCount histogram) :
    ∃ axis d lower upper, applyMedianCut histogram vbox = .ok [lower, upper] ∧
      (∀ other, vbox.upper other - vbox.lower other ≤ vbox.upper axis - vbox.lower axis) ∧
      CutInto histogram vbox axis d lower upper := by
  have hne : vbox.getCount histogram ≠ 0 := by omega
  obtain ⟨axis, haxis, hwidest⟩ := widestColorChannel_ok hne
  obtain ⟨htotal, hsums⟩ := sums_ok hne axis
  obtain ⟨d, hd, hcut, hlo, hhi, hpos, hstop⟩ :=
    cut_ok hsums (lower_le_upper hne axis) (by omega)
  have hlower := cells_setUpper hd hhi
  have hupper := cells_setLower hlo
  refine ⟨axis, d, vbox.setUpper d hd axis, vbox.setLower (d + 1) axis, ?_, hwidest, hlower,
    hupper, ?_, ?_⟩
  · unfold applyMedianCut
    rw [if_neg hne, if_neg (by omega), haxis]
    dsimp only
    rw [htotal]
    exact hcut
  · rw [getCount_eq, hlower]
    exact hpos.ne'
  · rw [getCount_eq, hupper]
    refine above_eq_zero_iff (fun c hc => (mem_cells.mp hc axis).1) hpos fun hall => hstop ?_
    rw [hall, getCount_eq]

end PracticeApps.ColorThief.MMCQ
