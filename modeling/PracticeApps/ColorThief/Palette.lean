import PracticeApps.ColorThief.Quantize

/-!
# The dominant colour

Each palette colour is the mean of the pixels in its box, or the centre of an
empty box. The first one is that of the box with the largest product of
population and size, which is what `getColor` answers.
-/

namespace PracticeApps.ColorThief
open ComparatorSort Cuts MMCQ

/-! ### Means -/

def channel : ColorChannel → Color → ℕ
  | .r, color => color.r.toNat
  | .g, color => color.g.toNat
  | .b, color => color.b.toNat

/- The middle of the eight values that share their upper five bits. -/
def middle (x : ℕ) : ℕ := 8 * x + 4

/- Between the middles of two cells of the box that have pixels. -/
def Between (histogram : Histogram) (vbox : VBox) (axis : ColorChannel) (value : ℕ) : Prop :=
  (∃ c ∈ vbox.cells, weight histogram c ≠ 0 ∧ middle (coord axis c) ≤ value) ∧
    ∃ c ∈ vbox.cells, weight histogram c ≠ 0 ∧ value ≤ middle (coord axis c)

variable {histogram : Histogram} {vbox : VBox}

theorem uint8_ok {value : ℕ} (h : value < 256) :
    ∃ v, uint8 value = .ok v ∧ v.toNat = value := by
  refine ⟨UInt8.ofNat value, if_pos h, ?_⟩
  rw [UInt8.toNat_ofNat']
  omega

theorem weighted_eq (hval i : ℕ) : VBox.weighted hval i = hval * middle i := by
  have hexact : (hval : ℚ) * ((i : ℚ) + 1 / 2) * multiplier = ((hval * middle i : ℕ) : ℚ) := by
    have hmultiplier : multiplier = 8 := rfl
    rw [hmultiplier, middle]
    push_cast
    ring
  rw [VBox.weighted, hexact, Nat.floor_natCast]

/- One of the three means. -/
theorem mean_ok (axis : ColorChannel) (hcount : vbox.getCount histogram ≠ 0) :
    ∃ v : UInt8, uint8 ((vbox.sumOver fun i j k =>
        VBox.weighted (histogram (makeColorIndexOf i j k)) (coord axis (i, j, k))) /
          vbox.getCount histogram) = .ok v ∧
      Between histogram vbox axis v.toNat := by
  have hpos : 0 < mass (weight histogram) vbox.cells := by
    rw [← getCount_eq]
    omega
  have hsum : (vbox.sumOver fun i j k =>
      VBox.weighted (histogram (makeColorIndexOf i j k)) (coord axis (i, j, k))) =
        ∑ c ∈ vbox.cells, weight histogram c * middle (coord axis c) := by
    rw [sumOver_eq]
    exact Finset.sum_congr rfl fun c _ => weighted_eq _ _
  obtain ⟨hlow, c, hc, hw, hle⟩ :=
    mean_between (w := weight histogram) (g := fun c => middle (coord axis c)) hpos rfl
  have hcube := cells_inCube hc axis
  obtain ⟨v, hv, hvalue⟩ : ∃ v, uint8 ((∑ c ∈ vbox.cells,
      weight histogram c * middle (coord axis c)) / mass (weight histogram) vbox.cells) = .ok v ∧
        v.toNat = _ := uint8_ok (by simp only [middle] at hle ⊢; omega)
  rw [hsum, getCount_eq]
  exact ⟨v, hv, by rw [hvalue]; exact ⟨hlow, c, hc, hw, hle⟩⟩

/-- No conversion of an average to a byte traps, and the average of a box with pixels lies
between its pixels. -/
theorem getAverage_ok (histogram : Histogram) (vbox : VBox) :
    ∃ color, vbox.getAverage histogram = .ok color ∧
      (vbox.getCount histogram ≠ 0 → ∀ axis, Between histogram vbox axis (channel axis color)) ∧
      (vbox.getCount histogram = 0 → ∀ axis, channel axis color =
        min (multiplier * (vbox.lower axis + vbox.upper axis + 1) / 2) 255) := by
  unfold VBox.getAverage
  dsimp only
  by_cases hcount : vbox.getCount histogram = 0
  · rw [if_neg (by unfold VBox.getCount at hcount; omega)]
    obtain ⟨r, hr, hred⟩ :=
      uint8_ok (by omega : min (multiplier * (vbox.rMin + vbox.rMax + 1) / 2) 255 < 256)
    obtain ⟨g, hg, hgreen⟩ :=
      uint8_ok (by omega : min (multiplier * (vbox.gMin + vbox.gMax + 1) / 2) 255 < 256)
    obtain ⟨b, hb, hblue⟩ :=
      uint8_ok (by omega : min (multiplier * (vbox.bMin + vbox.bMax + 1) / 2) 255 < 256)
    rw [hr, hg, hb]
    refine ⟨{ r := r, g := g, b := b }, rfl, fun hne => absurd hcount hne, fun _ axis => ?_⟩
    cases axis with
    | r => exact hred
    | g => exact hgreen
    | b => exact hblue
  · obtain ⟨r, hr, hred⟩ := mean_ok .r hcount
    obtain ⟨g, hg, hgreen⟩ := mean_ok .g hcount
    obtain ⟨b, hb, hblue⟩ := mean_ok .b hcount
    unfold VBox.getCount at hr hg hb
    rw [if_pos (by unfold VBox.getCount at hcount; omega)]
    simp only [coord] at hr hg hb
    rw [hr, hg, hb]
    refine ⟨{ r := r, g := g, b := b }, rfl, fun _ axis => ?_, fun hzero => absurd hzero hcount⟩
    cases axis with
    | r => exact hred
    | g => exact hgreen
    | b => exact hblue

theorem mapM_ok {α β τ : Type} {f : α → Except τ β} {l : List α}
    (h : ∀ a ∈ l, ∃ b, f a = .ok b) :
    ∃ bs, l.mapM f = .ok bs ∧ List.Forall₂ (fun a b => f a = .ok b) l bs := by
  induction l with
  | nil => exact ⟨[], rfl, List.Forall₂.nil⟩
  | cons a l ih =>
    obtain ⟨b, hb⟩ := h a List.mem_cons_self
    obtain ⟨bs, hbs, hall⟩ := ih fun x hx => h x (List.mem_cons_of_mem a hx)
    refine ⟨b :: bs, ?_, List.Forall₂.cons hb hall⟩
    rw [List.mapM_cons, hb, hbs]
    rfl

theorem makePalette_ok (colorMap : ColorMap) :
    ∃ palette, colorMap.makePalette = .ok palette ∧
      List.Forall₂ (fun vbox color => vbox.getAverage colorMap.histogram = .ok color)
        colorMap.vboxes palette :=
  mapM_ok fun vbox _ => by
    obtain ⟨color, hcolor, -⟩ := getAverage_ok colorMap.histogram vbox
    exact ⟨color, hcolor⟩

/-! ### Answers -/

variable (sorter : Sorter VBox) (quality : ℤ) (ignoreWhite : Bool)

theorem getPalette_some {pixels : List UInt8} {colorCount : ℤ} {colorMap : ColorMap}
    {palette : List Color}
    (hquantize : quantize sorter pixels quality ignoreWhite colorCount = .ok (some colorMap))
    (hpalette : colorMap.makePalette = .ok palette) :
    getPalette sorter (some pixels) colorCount quality ignoreWhite = .ok (some palette) := by
  unfold getPalette
  dsimp only
  rw [hquantize]
  dsimp only
  rw [hpalette]

/-- With a quality other than zero a palette is computed without a trap, and there is none
exactly if the image gives no bytes or the number of colours asked for is out of range. It has
at least as many colours as boxes are cut by population, where there are that many pixels, and
at most one more than that or one fewer than asked for. -/
theorem palette_size (hquality : quality ≠ 0) (makeBytes : Option (List UInt8))
    (colorCount : ℤ) :
    ∃ palette, getPalette sorter makeBytes colorCount quality ignoreWhite = .ok palette ∧
      (palette = none ↔ makeBytes = none ∨ makeBytes = some [] ∨
        ¬ (1 < colorCount ∧ colorCount ≤ 256)) ∧
      ∀ pixels, makeBytes = some pixels → ∀ colors, palette = some colors →
        min (populationTarget colorCount) (countedPixels pixels quality ignoreWhite).length ≤
            colors.length ∧
          (colors.length : ℤ) ≤ max (populationTarget colorCount + 1) (colorCount - 1) := by
  cases makeBytes with
  | none => exact ⟨none, rfl, by simp, fun pixels h => by cases h⟩
  | some pixels =>
    by_cases hasked : pixels = [] ∨ ¬ (1 < colorCount ∧ colorCount ≤ 256)
    · have hnone : quantize sorter pixels quality ignoreWhite colorCount = .ok none := if_pos hasked
      refine ⟨none, ?_, ?_, fun _ _ colors h => by cases h⟩
      · unfold getPalette
        dsimp only
        rw [hnone]
      · simpa using hasked
    · obtain ⟨hpixels, hcolors⟩ := not_or.mp hasked
      obtain ⟨colorMap, hquantize, hmap⟩ :=
        quantize_ok sorter ignoreWhite hpixels hquality (not_not.mp hcolors)
      obtain ⟨palette, hpalette, hall⟩ := makePalette_ok colorMap
      refine ⟨some palette, getPalette_some sorter quality ignoreWhite hquantize hpalette, ?_, ?_⟩
      · simp only [reduceCtorEq, Option.some.injEq, false_or, false_iff]
        exact hasked
      · intro pixels' hbytes colors hsome
        cases hbytes
        cases hsome
        rw [← hall.length_eq]
        exact ⟨hmap.size_ge, hmap.size_le⟩

/- Four reds of a row of cells, each an opaque pixel of four bytes. -/
def fourReds : List UInt8 := [255, 0, 0, 0, 255, 0, 0, 8, 255, 0, 0, 16, 255, 0, 0, 24]

theorem counted_fourReds : countedPixels fourReds 1 true =
    [{ a := 255, b := 0, g := 0, r := 0 }, { a := 255, b := 0, g := 0, r := 8 },
      { a := 255, b := 0, g := 0, r := 16 }, { a := 255, b := 0, g := 0, r := 24 }] := by
  decide

theorem fourReds_palette :
    ∃ colors, getPalette insertionSorter (some fourReds) 5 1 true = .ok (some colors) ∧
      4 ≤ colors.length ∧ colors.length ≤ 5 := by
  obtain ⟨palette, hpalette, hnone, hsize⟩ :=
    palette_size insertionSorter 1 true (by decide) (some fourReds) 5
  have htarget : populationTarget 5 = 4 := by
    unfold populationTarget fractionByPopulation
    norm_num
  cases palette with
  | none => exact absurd (hnone.mp rfl) (by decide)
  | some colors =>
    have hbounds := hsize fourReds rfl colors rfl
    rw [htarget, counted_fourReds] at hbounds
    simp only [List.length_cons, List.length_nil] at hbounds
    exact ⟨colors, hpalette, by omega, by omega⟩

/-- The boxes of a colour map share out the counted pixels: each of them is in exactly one
box, and the populations that the sorting goes by are those numbers of pixels. -/
theorem boxes_share_out_pixels {pixels : List UInt8} {maxColors : ℤ} {colorMap : ColorMap}
    (hquantize : quantize sorter pixels quality ignoreWhite maxColors = .ok (some colorMap)) :
    (∀ p ∈ countedPixels pixels quality ignoreWhite,
        colorMap.vboxes.countP (fun vbox => decide (cellOf p ∈ vbox.cells)) = 1) ∧
      (∀ vbox ∈ colorMap.vboxes, vbox.getCount colorMap.histogram =
        (countedPixels pixels quality ignoreWhite).countP fun p =>
          decide (cellOf p ∈ vbox.cells)) ∧
      (colorMap.vboxes.map (VBox.getCount colorMap.histogram)).sum =
        (countedPixels pixels quality ignoreWhite).length := by
  by_cases hasked : pixels = [] ∨ ¬ (1 < maxColors ∧ maxColors ≤ 256)
  · have hnone : quantize sorter pixels quality ignoreWhite maxColors = .ok none := if_pos hasked
    rw [hnone] at hquantize
    cases hquantize
  · obtain ⟨hpixels, hcolors⟩ := not_or.mp hasked
    have hquality : quality ≠ 0 := by
      rintro rfl
      rw [quantize_zero sorter ignoreWhite hpixels (not_not.mp hcolors)] at hquantize
      cases hquantize
    obtain ⟨colorMap', hquantize', hmap⟩ :=
      quantize_ok sorter ignoreWhite hpixels hquality (not_not.mp hcolors)
    rw [hquantize] at hquantize'
    cases hquantize'
    obtain ⟨root, hcube, hroot, htiles⟩ := hmap.tiles
    refine ⟨?_, fun vbox _ => getCount_tally hmap.tally vbox, ?_⟩
    · intro p hp
      have hone := htiles (cellOf p)
      rw [if_pos (hroot p hp), List.countP_map] at hone
      exact hone
    · exact sum_getCount hmap.tally hcube hroot htiles

theorem fourReds_shared_out :
    ∃ colorMap, quantize insertionSorter fourReds 1 true 5 = .ok (some colorMap) ∧
      4 ≤ colorMap.vboxes.length ∧
      (∀ c : Cell, c ∈ [(0, 0, 0), (1, 0, 0), (2, 0, 0), (3, 0, 0)] →
        colorMap.vboxes.countP (fun vbox => decide (c ∈ vbox.cells)) = 1) ∧
      (colorMap.vboxes.map (VBox.getCount colorMap.histogram)).sum = 4 := by
  obtain ⟨colorMap, hquantize, hmap⟩ := quantize_ok insertionSorter true
    (by decide : fourReds ≠ []) (by decide : (1 : ℤ) ≠ 0) (by decide : (1 : ℤ) < 5 ∧ (5 : ℤ) ≤ 256)
  obtain ⟨hone, -, hsum⟩ := boxes_share_out_pixels insertionSorter 1 true hquantize
  have hsize := hmap.size_ge
  have htarget : populationTarget 5 = 4 := by
    unfold populationTarget fractionByPopulation
    norm_num
  rw [htarget, counted_fourReds] at hsize
  rw [counted_fourReds] at hone hsum
  refine ⟨colorMap, hquantize, by simpa using hsize, ?_, hsum⟩
  intro c hc
  have hcell : ∃ p ∈ countedPixels fourReds 1 true, cellOf p = c := by
    rw [counted_fourReds]
    revert c hc
    decide
  obtain ⟨p, hp, rfl⟩ := hcell
  rw [counted_fourReds] at hp
  exact hone p hp

theorem distance_lt (color other : Color) : distance color other < 2 ^ 63 - 1 := by
  have := color.r.toNat_lt
  have := color.g.toNat_lt
  have := color.b.toNat_lt
  have := other.r.toNat_lt
  have := other.g.toNat_lt
  have := other.b.toNat_lt
  unfold distance
  dsimp only
  omega

/- The pair kept is the one at the start or a colour with its distance. -/
theorem foldl_nearer (color : Color) (palette : List Color) (start : ℕ × Color) :
    (palette.foldl (nearer color) start).1 ≤ start.1 ∧
      (∀ other ∈ palette, (palette.foldl (nearer color) start).1 ≤ distance color other) ∧
      (palette.foldl (nearer color) start = start ∨
        (palette.foldl (nearer color) start).2 ∈ palette ∧
          (palette.foldl (nearer color) start).1 =
            distance color (palette.foldl (nearer color) start).2) := by
  induction palette generalizing start with
  | nil => exact ⟨le_rfl, fun _ h => absurd h List.not_mem_nil, Or.inl rfl⟩
  | cons vbColor palette ih =>
    obtain ⟨hstart, hall, hkept⟩ := ih (nearer color start vbColor)
    have hnearer : (nearer color start vbColor).1 ≤ start.1 ∧
        (nearer color start vbColor).1 ≤ distance color vbColor := by
      unfold nearer
      split <;> omega
    rw [List.foldl_cons]
    refine ⟨hstart.trans hnearer.1, ?_, ?_⟩
    · intro other hother
      rcases List.mem_cons.mp hother with rfl | hother
      · exact hstart.trans hnearer.2
      · exact hall other hother
    · rcases hkept with hkept | ⟨hmem, hdistance⟩
      · rw [hkept]
        unfold nearer
        split
        · exact Or.inr ⟨List.mem_cons_self, rfl⟩
        · exact Or.inl rfl
      · exact Or.inr ⟨List.mem_cons_of_mem vbColor hmem, hdistance⟩

/-- The nearest colour of a colour map is one of its palette, and none of the palette is nearer;
a map without boxes answers black. -/
theorem makeNearestColor_ok (colorMap : ColorMap) (color : Color) :
    ∃ palette nearest, colorMap.makePalette = .ok palette ∧
      colorMap.makeNearestColor color = .ok nearest ∧
      (palette = [] → nearest = { r := 0, g := 0, b := 0 }) ∧
      (palette ≠ [] → nearest ∈ palette ∧
        ∀ other ∈ palette, distance color nearest ≤ distance color other) := by
  obtain ⟨palette, hpalette, -⟩ := makePalette_ok colorMap
  obtain ⟨-, hall, hkept⟩ :=
    foldl_nearer color palette (2 ^ 63 - 1, { r := 0, g := 0, b := 0 })
  unfold ColorMap.makeNearestColor
  rw [hpalette]
  refine ⟨palette, _, rfl, rfl, fun hnil => by rw [hnil]; rfl, fun hne => ?_⟩
  obtain ⟨first, hfirst⟩ := List.exists_mem_of_ne_nil palette hne
  rcases hkept with hstart | ⟨hmem, hdistance⟩
  · have hle := hall first hfirst
    have hlt := distance_lt color first
    rw [hstart] at hle
    omega
  · exact ⟨hmem, fun other hother => hdistance ▸ hall other hother⟩

/-! ### The first box -/

/-- If a pixel counts, the first box has pixels, and no box has a larger score. -/
theorem first_box {ps : List Pixel} {maxColors : ℤ} {colorMap : ColorMap}
    (hmap : Quantized ps maxColors colorMap) (hps : ps ≠ []) :
    ∃ vbox rest, colorMap.vboxes = vbox :: rest ∧ vbox.getCount colorMap.histogram ≠ 0 ∧
      ∀ other ∈ colorMap.vboxes,
        score colorMap.histogram other ≤ score colorMap.histogram vbox := by
  obtain ⟨vbox, rest, hboxes⟩ := List.exists_cons_of_ne_nil hmap.nonempty
  have hlargest : ∀ other ∈ colorMap.vboxes,
      score colorMap.histogram other ≤ score colorMap.histogram vbox := by
    intro other hother
    rw [hboxes] at hother
    rcases List.mem_cons.mp hother with rfl | hrest
    · exact le_rfl
    · have hsorted := hmap.sorted
      rw [hboxes, List.pairwise_cons] at hsorted
      have hnot := hsorted.1 other hrest
      rw [← Bool.not_eq_true, compareByProduct_iff, productKey, productKey,
        Prod.Lex.toLex_lt_toLex] at hnot
      omega
  refine ⟨vbox, rest, hboxes, ?_, hlargest⟩
  obtain ⟨p, hp⟩ := List.exists_mem_of_ne_nil ps hps
  obtain ⟨root, -, hroot, htiles⟩ := hmap.tiles
  have hone := htiles (cellOf p)
  rw [if_pos (hroot p hp), List.countP_map] at hone
  obtain ⟨box, hbox, hcell⟩ := List.countP_pos_iff.mp (Nat.lt_of_lt_of_eq Nat.zero_lt_one hone.symm)
  have hcount : box.getCount colorMap.histogram ≠ 0 := by
    rw [getCount_tally hmap.tally]
    exact (List.countP_pos_iff.mpr ⟨p, hp, hcell⟩).ne'
  have hpositive := (score_pos_iff colorMap.histogram box).mpr hcount
  exact (score_pos_iff colorMap.histogram vbox).mp (hpositive.trans_le (hlargest box hbox))

/- The average of a box with pixels lies between two of them on each channel. -/
theorem average_between {ps : List Pixel} {maxColors : ℤ} {colorMap : ColorMap} {color : Color}
    (hmap : Quantized ps maxColors colorMap) (hcount : vbox.getCount colorMap.histogram ≠ 0)
    (haverage : vbox.getAverage colorMap.histogram = .ok color) (axis : ColorChannel) :
    ∃ p ∈ ps, ∃ q ∈ ps, cellOf p ∈ vbox.cells ∧ cellOf q ∈ vbox.cells ∧
      middle (coord axis (cellOf p)) ≤ channel axis color ∧
      channel axis color ≤ middle (coord axis (cellOf q)) := by
  obtain ⟨color', haverage', hbetween, -⟩ := getAverage_ok colorMap.histogram vbox
  rw [haverage] at haverage'
  cases haverage'
  obtain ⟨⟨c, hc, hw, hle⟩, c', hc', hw', hle'⟩ := hbetween hcount axis
  rw [hmap.tally c (cells_inCube hc)] at hw
  rw [hmap.tally c' (cells_inCube hc')] at hw'
  obtain ⟨p, hp, hcell⟩ := List.countP_pos_iff.mp (Nat.pos_of_ne_zero hw)
  obtain ⟨q, hq, hcell'⟩ := List.countP_pos_iff.mp (Nat.pos_of_ne_zero hw')
  rw [decide_eq_true_iff] at hcell hcell'
  subst hcell hcell'
  exact ⟨p, hp, q, hq, hc, hc', hle, hle'⟩

/- A box that has pixels nowhere stays what it is, and there is no other one. -/
theorem quantize_blank {pixels : List UInt8} {maxColors : ℤ} (hpixels : pixels ≠ [])
    (hquality : quality ≠ 0) (hcolors : 1 < maxColors ∧ maxColors ≤ 256)
    (hblank : countedPixels pixels quality ignoreWhite = []) :
    quantize sorter pixels quality ignoreWhite maxColors =
      .ok (some { histogram := Scan.start.histogram, vboxes := [Scan.start.vbox] }) := by
  have hcount : ∀ queue : List VBox, queue.Perm [Scan.start.vbox] →
      ∀ b ∈ queue, b.getCount Scan.start.histogram ≤ 1 := by
    intro queue hqueue b hb
    have htally : b.getCount Scan.start.histogram = _ := getCount_tally (scanned []).tally b
    rw [htally]
    exact Nat.zero_le _
  have hrounds : ∀ comparator target queue, queue.Perm [Scan.start.vbox] →
      iterate sorter Scan.start.histogram comparator target maxIterations 1 queue =
        .ok [Scan.start.vbox] := by
    intro comparator target queue hqueue
    have hsome : queue ≠ [] := fun h => by rw [h] at hqueue; exact absurd hqueue.length_eq (by decide)
    obtain ⟨result, -, hresult, -, -, -⟩ := iterate_invariant (I := fun _ _ => True)
      sorter Scan.start.histogram comparator target (fun _ _ _ _ _ => trivial)
      (fun _ _ _ _ _ _ _ _ _ => trivial) maxIterations hsome trivial
    have hperm := (iterate_settled maxIterations (hcount queue hqueue) hresult).trans hqueue
    rw [hresult, List.perm_singleton.mp hperm]
  unfold quantize
  rw [if_neg (by tauto), makeHistogramAndVBox_ok hquality, hblank, List.foldl_nil]
  dsimp only
  rw [hrounds _ _ _ (List.Perm.refl _)]
  dsimp only
  rw [hrounds _ _ _ (sorter.perm _ _)]
  rfl

theorem average_blank :
    VBox.getAverage Scan.start.histogram Scan.start.vbox =
      .ok { r := 255, g := 255, b := 255 } := by
  decide

end PracticeApps.ColorThief
