import PracticeApps.ColorThief.Queue
import Mathlib.Data.List.Sort

/-!
# Palettes

Every `quality`-th pixel that is opaque and not white counts. The boxes of a
colour map tile the colour space around the counted pixels, so that each pixel
is in one box and one only; the palette has their mean colours, the box of the
largest score first.
-/

namespace PracticeApps.ColorThief.MMCQ
open ComparatorSort Cuts EventMachine

/-! ### The counted pixels -/

def cellOf (p : Pixel) : Cell := (shifted p.r, shifted p.g, shifted p.b)

/-- The pixels at the multiples of `quality` that are mostly opaque and not white. -/
def countedPixels (pixels : List UInt8) (quality : ℤ) (ignoreWhite : Bool) : List Pixel :=
  (((List.range (pixels.length / 4)).filter fun i : ℕ =>
    decide (0 < quality ∧ quality ∣ i)).filterMap
      fun i => (pixelAt pixels i).toOption).filter (Pixel.counts ignoreWhite)

variable {pixels : List UInt8} {quality : ℤ} {ignoreWhite : Bool}

theorem strided_ok (n : ℕ) (hquality : quality ≠ 0) :
    strided n quality =
      .ok ((List.range n).filter fun i : ℕ => decide (0 < quality ∧ quality ∣ i)) := by
  unfold strided
  rw [if_neg hquality]
  split
  · rename_i hneg
    have hnone : ((List.range n).filter fun i : ℕ => decide (0 < quality ∧ quality ∣ i)) = [] := by
      rw [List.filter_eq_nil_iff]
      intro i _
      rw [decide_eq_true_iff]
      omega
    rw [hnone]
  · rename_i hpos
    obtain ⟨q, rfl⟩ := Int.eq_ofNat_of_zero_le (not_lt.mp hpos)
    have hq : 0 < q := by omega
    congr 1
    refine List.Pairwise.eq_of_mem_iff (r := (· < ·)) ?_ (List.pairwise_lt_range.filter _) ?_
    · rw [List.pairwise_map]
      exact List.pairwise_lt_range.imp fun hlt => Nat.mul_lt_mul_of_pos_right hlt hq
    · intro i
      simp only [List.mem_map, List.mem_range, List.mem_filter, decide_eq_true_eq,
        Int.toNat_natCast, Int.natCast_dvd_natCast]
      constructor
      · rintro ⟨k, hk, rfl⟩
        have hmul := (Nat.lt_div_iff_mul_lt hq).mp hk
        exact ⟨by omega, by omega, Dvd.intro_left k rfl⟩
      · rintro ⟨hlt, -, k, rfl⟩
        refine ⟨k, (Nat.lt_div_iff_mul_lt hq).mpr ?_, Nat.mul_comm k q⟩
        rw [Nat.mul_comm]
        omega

theorem pixelAt_ok {i : ℕ} (hi : i < pixels.length / 4) : ∃ p, pixelAt pixels i = .ok p := by
  unfold pixelAt
  rw [List.getElem?_eq_getElem (by omega : i * 4 + 0 < pixels.length),
    List.getElem?_eq_getElem (by omega : i * 4 + 1 < pixels.length),
    List.getElem?_eq_getElem (by omega : i * 4 + 2 < pixels.length),
    List.getElem?_eq_getElem (by omega : i * 4 + 3 < pixels.length)]
  exact ⟨_, rfl⟩

theorem exec_scanPixel {indices : List ℕ} (s : Scan)
    (hindices : ∀ i ∈ indices, i < pixels.length / 4) :
    exec (scanPixel pixels ignoreWhite) s indices =
      .ok (((indices.filterMap fun i => (pixelAt pixels i).toOption).filter
        (Pixel.counts ignoreWhite)).foldl Scan.count s) := by
  induction indices generalizing s with
  | nil => rfl
  | cons i indices ih =>
    obtain ⟨p, hp⟩ := pixelAt_ok (hindices i List.mem_cons_self)
    have hrest := fun j hj => hindices j (List.mem_cons_of_mem i hj)
    have hstep : scanPixel pixels ignoreWhite s i =
        .ok (if p.counts ignoreWhite then s.count p else s) := by
      rw [scanPixel, hp]
    have hoption : (pixelAt pixels i).toOption = some p := by
      rw [hp]
      rfl
    rw [exec_cons_ok indices hstep, ih _ hrest, List.filterMap_cons, hoption]
    dsimp only
    by_cases hcounts : p.counts ignoreWhite = true
    · rw [if_pos hcounts, List.filter_cons_of_pos hcounts, List.foldl_cons]
    · rw [if_neg hcounts, List.filter_cons_of_neg hcounts]

theorem makeHistogramAndVBox_ok (hquality : quality ≠ 0) :
    makeHistogramAndVBox pixels quality ignoreWhite =
      .ok ((countedPixels pixels quality ignoreWhite).foldl Scan.count Scan.start) := by
  unfold makeHistogramAndVBox
  rw [strided_ok _ hquality]
  dsimp only
  rw [exec_scanPixel Scan.start fun i hi => List.mem_range.mp (List.mem_of_mem_filter hi)]
  rfl

/-! ### The scan -/

/- The cells of five bits a channel. -/
def InCube (c : Cell) : Prop := ∀ axis, coord axis c < 32

theorem cellOf_inCube (p : Pixel) : InCube (cellOf p) := by
  intro axis
  cases axis with
  | r => exact shifted_lt p.r
  | g => exact shifted_lt p.g
  | b => exact shifted_lt p.b

theorem cells_inCube {vbox : VBox} {c : Cell} (hc : c ∈ vbox.cells) : InCube c :=
  fun axis => lt_of_le_of_lt (mem_cells.mp hc axis).2 (upper_lt vbox axis)

/-- Different cells have different places in the histogram. -/
theorem makeColorIndexOf_inj {c c' : Cell} (hc : InCube c) (hc' : InCube c') :
    makeColorIndexOf c.1 c.2.1 c.2.2 = makeColorIndexOf c'.1 c'.2.1 c'.2.2 ↔ c = c' := by
  have hg := hc .g
  have hb := hc .b
  have hg' := hc' .g
  have hb' := hc' .b
  obtain ⟨r, g, b⟩ := c
  obtain ⟨r', g', b'⟩ := c'
  simp only [coord, makeColorIndexOf, signalBits, Nat.shiftLeft_eq, Prod.mk.injEq] at *
  omega

/- What is known after a number of counted pixels. -/
structure Scanned (ps : List Pixel) (s : Scan) : Prop where
  tally : ∀ c, InCube c → weight s.histogram c = ps.countP fun p => decide (cellOf p = c)
  inside : ∀ p ∈ ps, cellOf p ∈ s.vbox.cells

theorem count_scanned {ps : List Pixel} {s : Scan} (p : Pixel) (h : Scanned ps s) :
    Scanned (ps ++ [p]) (s.count p) := by
  constructor
  · intro c hc
    rw [List.countP_append, ← h.tally c hc, List.countP_singleton]
    unfold weight Scan.count
    dsimp only
    by_cases heq : cellOf p = c
    · have hindex := (makeColorIndexOf_inj (cellOf_inCube p) hc).mpr heq
      rw [if_pos (decide_eq_true heq), ← hindex]
      exact Function.update_self _ _ _
    · have hindex := mt (makeColorIndexOf_inj (cellOf_inCube p) hc).mp heq
      rw [if_neg (by rw [decide_eq_true_iff]; exact heq)]
      exact Function.update_of_ne (Ne.symm hindex) _ _
  · intro q hq
    rw [mem_cells]
    intro axis
    rcases List.mem_append.mp hq with hq | hq
    · have hold := mem_cells.mp (h.inside q hq) axis
      cases axis <;> simp only [Scan.count, VBox.lower, VBox.upper, coord, cellOf] at hold ⊢ <;>
        omega
    · rw [List.mem_singleton.mp hq]
      cases axis <;> simp only [Scan.count, VBox.lower, VBox.upper, coord, cellOf] <;> omega

theorem scanned (ps : List Pixel) : Scanned ps (ps.foldl Scan.count Scan.start) := by
  induction ps using List.reverseRecOn with
  | nil => exact ⟨fun _ _ => rfl, fun p hp => absurd hp List.not_mem_nil⟩
  | append_singleton ps p ih =>
    rw [List.foldl_append]
    exact count_scanned p ih

/-! ### The colour map -/

/- What the colour map of the counted pixels is. -/
structure Quantized (ps : List Pixel) (maxColors : ℤ) (colorMap : ColorMap) : Prop where
  nonempty : colorMap.vboxes ≠ []
  tiles : ∃ root : Finset Cell, (∀ c ∈ root, InCube c) ∧ (∀ p ∈ ps, cellOf p ∈ root) ∧
    Tiles root (colorMap.vboxes.map VBox.cells)
  tally : ∀ c, InCube c →
    weight colorMap.histogram c = ps.countP fun p => decide (cellOf p = c)
  sorted : colorMap.vboxes.Pairwise fun a b =>
    compareByProduct colorMap.histogram a b = false
  size_le : (colorMap.vboxes.length : ℤ) ≤
    max (populationTarget maxColors + 1) (maxColors - 1)
  size_ge : min (populationTarget maxColors) ps.length ≤ colorMap.vboxes.length

theorem getCount_tally {histogram : Histogram} {ps : List Pixel}
    (htally : ∀ c, InCube c → weight histogram c = ps.countP fun p => decide (cellOf p = c))
    (vbox : VBox) :
    vbox.getCount histogram = ps.countP fun p => decide (cellOf p ∈ vbox.cells) := by
  rw [getCount_eq]
  exact mass_tally cellOf ps fun c hc => htally c (cells_inCube hc)

/-- The populations of the boxes of a tiling add up to the number of counted pixels. -/
theorem sum_getCount {histogram : Histogram} {ps : List Pixel} {root : Finset Cell}
    {boxes : List VBox}
    (htally : ∀ c, InCube c → weight histogram c = ps.countP fun p => decide (cellOf p = c))
    (hcube : ∀ c ∈ root, InCube c) (hroot : ∀ p ∈ ps, cellOf p ∈ root)
    (htiles : Tiles root (boxes.map VBox.cells)) :
    (boxes.map (VBox.getCount histogram)).sum = ps.length := by
  have hmass := htiles.mass_eq (w := weight histogram)
  rw [List.map_map] at hmass
  have hcounts : boxes.map (VBox.getCount histogram) =
      boxes.map (mass (weight histogram) ∘ VBox.cells) :=
    List.map_congr_left fun b _ => getCount_eq
  rw [hcounts, hmass, mass_tally cellOf ps fun c hc => htally c (hcube c hc),
    List.countP_eq_length]
  intro p hp
  exact decide_eq_true (hroot p hp)

/- The boxes tile the root, and there is one more of them after each cut. -/
def Boxes (root : Finset Cell) (more : ℤ) (color : ℤ) (queue : List VBox) : Prop :=
  Tiles root (queue.map VBox.cells) ∧ (queue.length : ℤ) = color + more ∧ 1 ≤ color

theorem boxes_perm {root : Finset Cell} {more color : ℤ} {queue queue' : List VBox}
    (hperm : queue'.Perm queue) (h : Boxes root more color queue) :
    Boxes root more color queue' :=
  ⟨h.1.perm (hperm.map VBox.cells), by rw [hperm.length_eq]; exact h.2.1, h.2.2⟩

theorem boxes_cut {histogram : Histogram} {root : Finset Cell} {more color : ℤ}
    {init : List VBox} {vbox lower upper : VBox} {axis : ColorChannel} {d : ℕ}
    (hcut : CutInto histogram vbox axis d lower upper) (h : Boxes root more color (vbox :: init)) :
    Boxes root more (color + 1) (lower :: upper :: init) := by
  obtain ⟨htiles, hlength, hcolor⟩ := h
  refine ⟨?_, ?_, by omega⟩
  · simp only [List.map_cons] at htiles ⊢
    rw [hcut.lower_cells, hcut.upper_cells]
    exact htiles.cut (coord axis) d
  · simp only [List.length_cons, Nat.cast_add, Nat.cast_one] at hlength ⊢
    omega

theorem populationTarget_bounds {maxColors : ℤ} (hcolors : 1 < maxColors ∧ maxColors ≤ 256) :
    2 ≤ populationTarget maxColors ∧ populationTarget maxColors ≤ 192 := by
  have hlow : (2 : ℚ) ≤ maxColors := by exact_mod_cast Int.add_one_le_of_lt hcolors.1
  have hhigh : (maxColors : ℚ) ≤ 256 := by exact_mod_cast hcolors.2
  unfold populationTarget fractionByPopulation
  constructor
  · have : (1 : ℤ) < ⌈(75 / 100 : ℚ) * maxColors⌉ := by
      rw [Int.lt_ceil]
      push_cast
      linarith
    omega
  · rw [Int.ceil_le]
    push_cast
    linarith

theorem quantize_zero (sorter : Sorter VBox) (ignoreWhite : Bool) (hpixels : pixels ≠ [])
    {maxColors : ℤ} (hcolors : 1 < maxColors ∧ maxColors ≤ 256) :
    quantize sorter pixels 0 ignoreWhite maxColors = .error .strideByZero := by
  unfold quantize
  rw [if_neg (by tauto)]
  rfl

theorem quantize_ok (sorter : Sorter VBox) (ignoreWhite : Bool) (hpixels : pixels ≠ [])
    (hquality : quality ≠ 0) {maxColors : ℤ} (hcolors : 1 < maxColors ∧ maxColors ≤ 256) :
    ∃ colorMap, quantize sorter pixels quality ignoreWhite maxColors = .ok (some colorMap) ∧
      Quantized (countedPixels pixels quality ignoreWhite) maxColors colorMap := by
  obtain ⟨htarget, hrounds⟩ := populationTarget_bounds hcolors
  have hscanned := scanned (countedPixels pixels quality ignoreWhite)
  obtain ⟨scan, hscan⟩ : ∃ scan,
      (countedPixels pixels quality ignoreWhite).foldl Scan.count Scan.start = scan := ⟨_, rfl⟩
  rw [hscan] at hscanned
  have hfirst : Boxes scan.vbox.cells 0 1 [scan.vbox] := ⟨tiles_singleton, rfl, le_rfl⟩
  obtain ⟨pq, color, hpq, hne, ⟨htiles, hlength, hcolor⟩, hmax⟩ :=
    iterate_invariant (I := Boxes scan.vbox.cells 0) sorter scan.histogram
      (compareByCount scan.histogram) (populationTarget maxColors)
      (fun _ _ _ hperm h => boxes_perm hperm h) (fun _ _ _ _ _ _ _ hcut h => boxes_cut hcut h)
      maxIterations (List.cons_ne_nil _ _) hfirst
  have hreached := iterate_reaches maxIterations
    (by show _ ≤ 1 + ((1000 : ℕ) : ℤ); omega) (List.pairwise_singleton _ _)
    (List.cons_ne_nil _ _) hpq
  have hsort := sorter.perm (compareByProduct scan.histogram) pq
  have hsecond : Boxes scan.vbox.cells ((pq.length : ℤ) - 1) 1
      (sorter.sort (compareByProduct scan.histogram) pq) :=
    ⟨htiles.perm (hsort.map VBox.cells), by rw [hsort.length_eq]; omega, le_rfl⟩
  obtain ⟨pq', color', hpq', hne', ⟨htiles', hlength', hcolor'⟩, hmax'⟩ :=
    iterate_invariant (I := Boxes scan.vbox.cells ((pq.length : ℤ) - 1)) sorter scan.histogram
      (compareByProduct scan.histogram)
      (maxColors - (sorter.sort (compareByProduct scan.histogram) pq).length)
      (fun _ _ _ hperm h => boxes_perm hperm h) (fun _ _ _ _ _ _ _ hcut h => boxes_cut hcut h)
      maxIterations (sorter.sort_ne_nil _ hne) hsecond
  have hsorted := iterate_sorted compareByProduct_strictWeak maxIterations
    (sorter.sorted _ _ compareByProduct_strictWeak) hpq'
  refine ⟨⟨scan.histogram, pq'.reverse⟩, ?_, ?_⟩
  · unfold quantize
    rw [if_neg (by tauto), makeHistogramAndVBox_ok hquality, hscan]
    dsimp only
    rw [hpq]
    dsimp only
    rw [hpq']
  · refine ⟨by simpa using hne', ⟨scan.vbox.cells, fun c => cells_inCube, hscanned.inside, ?_⟩,
      hscanned.tally, ?_, ?_, ?_⟩
    · exact htiles'.perm ((List.reverse_perm pq').map VBox.cells)
    · exact List.pairwise_reverse.mpr hsorted
    · rw [hsort.length_eq] at hmax'
      rw [List.length_reverse]
      omega
    · rw [List.length_reverse]
      rcases hreached with hreached | hsingle
      · simp only [List.length_singleton] at hreached
        omega
      · have hsum := sum_getCount hscanned.tally (fun c => cells_inCube) hscanned.inside
          htiles
        have hle := List.sum_le_card_nsmul (pq.map (VBox.getCount scan.histogram)) 1 (by
          intro n hn
          obtain ⟨b, hb, rfl⟩ := List.mem_map.mp hn
          exact hsingle b hb)
        rw [hsum, List.length_map, nsmul_eq_mul, Nat.cast_id, Nat.mul_one] at hle
        omega

end PracticeApps.ColorThief.MMCQ
