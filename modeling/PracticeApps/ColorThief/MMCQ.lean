import PracticeApps.Library.ComparatorSort
import PracticeApps.Library.EventMachine
import Mathlib.Algebra.Order.Floor.Ring
import Mathlib.Data.Rat.Floor

/-!
# MMCQ.swift, ColorThief.swift

The median cut that finds the dominant colour of an image. A box of the colour
space keeps the upper five bits of each channel; the histogram that all boxes of
one run share is a parameter. Doubles are exact, counts do not overflow, and
`sorter` is Swift's `sort(by:)`.
-/

namespace PracticeApps.ColorThief
open ComparatorSort EventMachine

inductive Trap where
  | indexOutOfRange
  | strideByZero
  | rangeUpperBelowLower
  | uint8Underflow
  | notAUInt8 (value : ℕ)
  | cannotBeCut
  deriving DecidableEq, Repr

namespace MMCQ

def signalBits : ℕ := 5
def rightShift : ℕ := 8 - signalBits
def multiplier : ℕ := 1 <<< rightShift
def vboxLength : ℕ := 1 <<< signalBits
def fractionByPopulation : ℚ := 75 / 100
def maxIterations : ℕ := 1000

def makeColorIndexOf (red green blue : ℕ) : ℕ :=
  (red <<< (2 * signalBits)) + (green <<< signalBits) + blue

structure Color where
  r : UInt8
  g : UInt8
  b : UInt8
  deriving DecidableEq, Repr

/- `UInt8(value)` -/
def uint8 (value : ℕ) : Except Trap UInt8 :=
  if value < 256 then .ok (UInt8.ofNat value) else .error (.notAUInt8 value)

inductive ColorChannel where
  | r
  | g
  | b
  deriving DecidableEq, Repr

/-! ### Boxes -/

/-- A box of the colour space; a lower end may lie beyond its upper end, and then the box
is empty. -/
structure VBox where
  rMin : ℕ
  rMax : ℕ
  gMin : ℕ
  gMax : ℕ
  bMin : ℕ
  bMax : ℕ
  rMax_lt : rMax < vboxLength
  gMax_lt : gMax < vboxLength
  bMax_lt : bMax < vboxLength
  deriving DecidableEq

def makeRange (min max : ℕ) : List ℕ := if min ≤ max then List.range' min (max + 1 - min) else []

abbrev Histogram := ℕ → ℕ

namespace VBox

def rRange (vbox : VBox) : List ℕ := makeRange vbox.rMin vbox.rMax
def gRange (vbox : VBox) : List ℕ := makeRange vbox.gMin vbox.gMax
def bRange (vbox : VBox) : List ℕ := makeRange vbox.bMin vbox.bMax

def getVolume (vbox : VBox) : ℤ :=
  ((vbox.rMax : ℤ) - vbox.rMin + 1) * ((vbox.gMax : ℤ) - vbox.gMin + 1) *
    ((vbox.bMax : ℤ) - vbox.bMin + 1)

/- The three nested loops, summing `f` of each colour. -/
def sumOver (vbox : VBox) (f : ℕ → ℕ → ℕ → ℕ) : ℕ :=
  (vbox.rRange.map fun i =>
    (vbox.gRange.map fun j => (vbox.bRange.map fun k => f i j k).sum).sum).sum

def getCount (histogram : Histogram) (vbox : VBox) : ℕ :=
  vbox.sumOver fun i j k => histogram (makeColorIndexOf i j k)

/- `Int(Double(hval) * (Double(i) + 0.5) * Double(MMCQ.multiplier))` -/
def weighted (hval i : ℕ) : ℕ := ⌊(hval : ℚ) * ((i : ℚ) + 1 / 2) * multiplier⌋₊

def getAverage (histogram : Histogram) (vbox : VBox) : Except Trap Color :=
  let hval := fun i j k => histogram (makeColorIndexOf i j k)
  let ntot := vbox.sumOver hval
  let rSum := vbox.sumOver fun i j k => weighted (hval i j k) i
  let gSum := vbox.sumOver fun i j k => weighted (hval i j k) j
  let bSum := vbox.sumOver fun i j k => weighted (hval i j k) k
  if 0 < ntot then do
    let r ← uint8 (rSum / ntot)
    let g ← uint8 (gSum / ntot)
    let b ← uint8 (bSum / ntot)
    return { r := r, g := g, b := b }
  else do
    let r ← uint8 (min (multiplier * (vbox.rMin + vbox.rMax + 1) / 2) 255)
    let g ← uint8 (min (multiplier * (vbox.gMin + vbox.gMax + 1) / 2) 255)
    let b ← uint8 (min (multiplier * (vbox.bMin + vbox.bMax + 1) / 2) 255)
    return { r := r, g := g, b := b }

/- The widths are differences of `UInt8`. -/
def widestColorChannel (vbox : VBox) : Except Trap ColorChannel :=
  if vbox.rMax < vbox.rMin ∨ vbox.gMax < vbox.gMin ∨ vbox.bMax < vbox.bMin then
    .error .uint8Underflow
  else
    let rWidth := vbox.rMax - vbox.rMin
    let gWidth := vbox.gMax - vbox.gMin
    let bWidth := vbox.bMax - vbox.bMin
    let widest := max (max rWidth gWidth) bWidth
    if widest = rWidth then .ok .r
    else if widest = gWidth then .ok .g
    else .ok .b

def lower (vbox : VBox) : ColorChannel → ℕ
  | .r => vbox.rMin
  | .g => vbox.gMin
  | .b => vbox.bMin

def upper (vbox : VBox) : ColorChannel → ℕ
  | .r => vbox.rMax
  | .g => vbox.gMax
  | .b => vbox.bMax

def setUpper (vbox : VBox) (d : ℕ) (h : d < vboxLength) : ColorChannel → VBox
  | .r => { vbox with rMax := d, rMax_lt := h }
  | .g => { vbox with gMax := d, gMax_lt := h }
  | .b => { vbox with bMax := d, bMax_lt := h }

def setLower (vbox : VBox) (d : ℕ) : ColorChannel → VBox
  | .r => { vbox with rMin := d }
  | .g => { vbox with gMin := d }
  | .b => { vbox with bMin := d }

end VBox

/-! ### The median cut -/

/- `while d2 < 0 || partialSum[d2] <= 0`; the first argument counts the indices left. -/
def skipEmpty (partialSum : List ℤ) : ℕ → ℤ → Except Trap ℕ
  | 0, _ => .error .indexOutOfRange
  | n + 1, d2 =>
    if d2 < 0 ∨ partialSum.getD d2.toNat 0 ≤ 0 then skipEmpty partialSum n (d2 + 1)
    else .ok d2.toNat

/- `while count2 == 0 && d2 > 0 && partialSum[d2 - 1] > 0` -/
def backUp (partialSum lookAheadSum : List ℤ) : ℕ → ℤ → ℕ
  | 0, _ => 0
  | d + 1, count2 =>
    if count2 = 0 ∧ 0 < partialSum.getD d 0 then
      backUp partialSum lookAheadSum d (lookAheadSum.getD d 0)
    else d + 1

/- Where the loops over `d2` start, for the index `i` of the median. -/
def firstGuess (vboxMin vboxMax i : ℤ) : ℤ :=
  let left := i - vboxMin
  let right := vboxMax - i
  if left ≤ right then min (vboxMax - 1) (i + right / 2)
  -- `Int(Double(i - 1) - Double(left) / 2.0)`
  else max vboxMin ((2 * (i - 1) - left).tdiv 2)

def cut (axis : ColorChannel) (vbox : VBox) (partialSum lookAheadSum : List ℤ) (total : ℕ) :
    Except Trap (List VBox) :=
  let vboxMin := vbox.lower axis
  let vboxMax := vbox.upper axis
  if vboxMax < vboxMin then .error .rangeUpperBelowLower
  else
    match (makeRange vboxMin vboxMax).find? fun i => (total / 2 : ℕ) < partialSum.getD i 0 with
    | none => .error .cannotBeCut
    | some i =>
      let d2 := firstGuess vboxMin vboxMax i
      match skipEmpty partialSum (vboxLength - d2).toNat d2 with
      | .error t => .error t
      | .ok d2 =>
        let d2 := backUp partialSum lookAheadSum d2 (lookAheadSum.getD d2 0)
        if h : d2 < vboxLength then .ok [vbox.setUpper d2 h axis, vbox.setLower (d2 + 1) axis]
        else .error .indexOutOfRange

/- The sum over the two other channels, inside the loop over the axis. -/
def axisSum (histogram : Histogram) (vbox : VBox) : ColorChannel → ℕ → ℕ
  | .r, i =>
    (vbox.gRange.map fun j =>
      (vbox.bRange.map fun k => histogram (makeColorIndexOf i j k)).sum).sum
  | .g, i =>
    (vbox.rRange.map fun j =>
      (vbox.bRange.map fun k => histogram (makeColorIndexOf j i k)).sum).sum
  | .b, i =>
    (vbox.rRange.map fun j =>
      (vbox.gRange.map fun k => histogram (makeColorIndexOf j k i)).sum).sum

def axisRange (vbox : VBox) (axis : ColorChannel) : List ℕ :=
  makeRange (vbox.lower axis) (vbox.upper axis)

/- `total += sum; partialSum[i] = total` along the axis. -/
def accumulate (sum : ℕ → ℕ) (range : List ℕ) : ℕ × List ℤ :=
  range.foldl (fun s i => (s.1 + sum i, s.2.set i ((s.1 + sum i : ℕ) : ℤ)))
    (0, List.replicate vboxLength (-1))

def lookAhead (total : ℕ) (partialSum : List ℤ) : List ℤ :=
  partialSum.map fun sum => if sum ≠ -1 then total - sum else -1

def applyMedianCut (histogram : Histogram) (vbox : VBox) : Except Trap (List VBox) :=
  if vbox.getCount histogram = 0 then .ok []
  else if vbox.getCount histogram = 1 then .ok [vbox]
  else
    match vbox.widestColorChannel with
    | .error t => .error t
    | .ok axis =>
      let sums := accumulate (axisSum histogram vbox axis) (axisRange vbox axis)
      cut axis vbox sums.2 (lookAhead sums.1 sums.2) sums.1

/-! ### The queue -/

variable (sorter : Sorter VBox) (histogram : Histogram)

def compareByCount (a b : VBox) : Bool := a.getCount histogram < b.getCount histogram

def compareByProduct (a b : VBox) : Bool :=
  let aCount := a.getCount histogram
  let bCount := b.getCount histogram
  let aVolume := a.getVolume
  let bVolume := b.getVolume
  if aCount = bCount then aVolume < bVolume
  else
    let aProduct := (aCount : ℤ) * aVolume
    let bProduct := (bCount : ℤ) * bVolume
    aProduct < bProduct

/- The first number counts the rounds left. -/
def iterate (comparator : VBox → VBox → Bool) (target : ℤ) :
    ℕ → ℤ → List VBox → Except Trap (List VBox)
  | 0, _, queue => .ok queue
  | n + 1, color, queue =>
    match queue.getLast? with
    | none => .ok queue
    | some vbox =>
      if vbox.getCount histogram = 0 then
        iterate comparator target n color (sorter.sort comparator queue)
      else
        match applyMedianCut histogram vbox with
        | .error t => .error t
        | .ok [] => .error .indexOutOfRange
        | .ok (vbox0 :: vboxes) =>
          let queue := queue.dropLast ++ [vbox0]
          let (queue, color) := match vboxes with
            | [vbox1] => (queue ++ [vbox1], color + 1)
            | _ => (queue, color)
          let queue := sorter.sort comparator queue
          if target ≤ color then .ok queue else iterate comparator target n color queue

/-! ### The histogram -/

structure Pixel where
  a : UInt8
  b : UInt8
  g : UInt8
  r : UInt8
  deriving DecidableEq, Repr

def pixelAt (pixels : List UInt8) (i : ℕ) : Except Trap Pixel :=
  match pixels[i * 4 + 0]?, pixels[i * 4 + 1]?, pixels[i * 4 + 2]?, pixels[i * 4 + 3]? with
  | some a, some b, some g, some r => .ok { a := a, b := b, g := g, r := r }
  | _, _, _, _ => .error .indexOutOfRange

/- If the pixel is mostly opaque and not white. -/
def Pixel.counts (ignoreWhite : Bool) (p : Pixel) : Bool :=
  decide (125 ≤ p.a) && !(ignoreWhite && decide (250 < p.r) && decide (250 < p.g) && decide (250 < p.b))

/- A channel of a pixel without its lower bits. -/
def shifted (channel : UInt8) : ℕ := channel.toNat >>> rightShift

theorem shifted_lt (channel : UInt8) : shifted channel < vboxLength := by
  have hbyte : channel.toNat < 256 := channel.toNat_lt
  show channel.toNat >>> 3 < 32
  rw [Nat.shiftRight_eq_div_pow]
  omega

/- The histogram and the extent of the pixels seen so far. -/
structure Scan where
  histogram : Histogram
  vbox : VBox

def Scan.start : Scan where
  histogram := fun _ => 0
  vbox :=
    { rMin := 255, rMax := 0, gMin := 255, gMax := 0, bMin := 255, bMax := 0
      rMax_lt := by decide, gMax_lt := by decide, bMax_lt := by decide }

def Scan.count (s : Scan) (p : Pixel) : Scan where
  histogram :=
    let index := makeColorIndexOf (shifted p.r) (shifted p.g) (shifted p.b)
    Function.update s.histogram index (s.histogram index + 1)
  vbox :=
    { rMin := min s.vbox.rMin (shifted p.r)
      rMax := max s.vbox.rMax (shifted p.r)
      gMin := min s.vbox.gMin (shifted p.g)
      gMax := max s.vbox.gMax (shifted p.g)
      bMin := min s.vbox.bMin (shifted p.b)
      bMax := max s.vbox.bMax (shifted p.b)
      rMax_lt := max_lt s.vbox.rMax_lt (shifted_lt p.r)
      gMax_lt := max_lt s.vbox.gMax_lt (shifted_lt p.g)
      bMax_lt := max_lt s.vbox.bMax_lt (shifted_lt p.b) }

def scanPixel (pixels : List UInt8) (ignoreWhite : Bool) (s : Scan) (i : ℕ) : Except Trap Scan :=
  match pixelAt pixels i with
  | .error t => .error t
  | .ok p => .ok (if p.counts ignoreWhite then s.count p else s)

/- `stride(from: 0, to: pixelCount, by: quality)` -/
def strided (pixelCount : ℕ) (quality : ℤ) : Except Trap (List ℕ) :=
  if quality = 0 then .error .strideByZero
  else if quality < 0 then .ok []
  else .ok ((List.range ((pixelCount + quality.toNat - 1) / quality.toNat)).map (· * quality.toNat))

def makeHistogramAndVBox (pixels : List UInt8) (quality : ℤ) (ignoreWhite : Bool) :
    Except Trap Scan :=
  match strided (pixels.length / 4) quality with
  | .error t => .error t
  | .ok indices => exec (scanPixel pixels ignoreWhite) Scan.start indices

/-! ### Colour maps -/

structure ColorMap where
  histogram : Histogram
  vboxes : List VBox

def ColorMap.makePalette (colorMap : ColorMap) : Except Trap (List Color) :=
  colorMap.vboxes.mapM fun vbox => vbox.getAverage colorMap.histogram

def distance (color vbColor : Color) : ℕ :=
  let dr := ((color.r.toNat : ℤ) - vbColor.r.toNat).natAbs
  let dg := ((color.g.toNat : ℤ) - vbColor.g.toNat).natAbs
  let db := ((color.b.toNat : ℤ) - vbColor.b.toNat).natAbs
  dr + dg + db

/- The nearest distance so far and the colour it belongs to. -/
def nearer (color : Color) (nearest : ℕ × Color) (vbColor : Color) : ℕ × Color :=
  if distance color vbColor < nearest.1 then (distance color vbColor, vbColor) else nearest

/- The distance starts from `Int.max`. -/
def ColorMap.makeNearestColor (colorMap : ColorMap) (color : Color) : Except Trap Color :=
  match colorMap.makePalette with
  | .error t => .error t
  | .ok palette => .ok (palette.foldl (nearer color) (2 ^ 63 - 1, { r := 0, g := 0, b := 0 })).2

/- `Int(ceil(fractionByPopulation * Double(maxColors)))` -/
def populationTarget (maxColors : ℤ) : ℤ := ⌈fractionByPopulation * maxColors⌉

/- `nil` when there is nothing to quantize or the number of colours is out of range. -/
def quantize (pixels : List UInt8) (quality : ℤ) (ignoreWhite : Bool) (maxColors : ℤ) :
    Except Trap (Option ColorMap) :=
  if pixels = [] ∨ ¬ (1 < maxColors ∧ maxColors ≤ 256) then .ok none
  else
    match makeHistogramAndVBox pixels quality ignoreWhite with
    | .error t => .error t
    | .ok scan =>
      match iterate sorter scan.histogram (compareByCount scan.histogram)
          (populationTarget maxColors) maxIterations 1 [scan.vbox] with
      | .error t => .error t
      | .ok pq =>
        let pq := sorter.sort (compareByProduct scan.histogram) pq
        match iterate sorter scan.histogram (compareByProduct scan.histogram)
            (maxColors - pq.length) maxIterations 1 pq with
        | .error t => .error t
        | .ok pq => .ok (some { histogram := scan.histogram, vboxes := pq.reverse })

end MMCQ

/-! ### ColorThief.swift -/

open MMCQ

def defaultQuality : ℤ := 10
def defaultIgnoreWhite : Bool := true

variable (sorter : Sorter VBox)

/- `makeBytes` gives the bytes of the image or nothing. -/
def getPalette (makeBytes : Option (List UInt8)) (colorCount quality : ℤ)
    (ignoreWhite : Bool) : Except Trap (Option (List Color)) :=
  match makeBytes with
  | none => .ok none
  | some pixels =>
    match quantize sorter pixels quality ignoreWhite colorCount with
    | .error t => .error t
    | .ok none => .ok none
    | .ok (some colorMap) =>
      match colorMap.makePalette with
      | .error t => .error t
      | .ok palette => .ok (some palette)

def getColor (makeBytes : Option (List UInt8)) (quality : ℤ) (ignoreWhite : Bool) :
    Except Trap (Option Color) :=
  match getPalette sorter makeBytes 5 quality ignoreWhite with
  | .error t => .error t
  | .ok none => .ok none
  | .ok (some palette) =>
    match palette with
    | [] => .error .indexOutOfRange
    | dominantColor :: _ => .ok (some dominantColor)

end PracticeApps.ColorThief
