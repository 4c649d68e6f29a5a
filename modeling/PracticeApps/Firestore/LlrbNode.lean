import PracticeApps.Library.SortedMap
import Mathlib.Algebra.Order.Ring.Nat

/-!
# llrb_node.h

Left-leaning red-black trees whose nodes keep the size of what is below them,
in 31 bits. A node of size 0 counts as empty. Rotating up or recolouring the one
shared empty node would give every tree a wrong leaf, so a step that would do it
gives `none`.
-/

namespace PracticeApps.Firestore

inductive Color where
  | Black
  | Red
  deriving DecidableEq

def Color.opposite : Color → Color
  | .Red => .Black
  | .Black => .Red

inductive LlrbNode (κ ν : Type) where
  | empty
  | node (entry : κ × ν) (color : Color) (size : ℕ) (left right : LlrbNode κ ν)

namespace LlrbNode
variable {κ ν : Type}

def size : LlrbNode κ ν → ℕ
  | .empty => 0
  | .node _ _ size _ _ => size

def isEmpty (n : LlrbNode κ ν) : Bool := decide (n.size = 0)

/- The size of a node above two others, as `size_` holds it. -/
def sizeAbove (left right : LlrbNode κ ν) : ℕ := (left.size + 1 + right.size) % 2 ^ 31

/- The empty node is black. -/
def red : LlrbNode κ ν → Bool
  | .empty => false
  | .node _ color _ _ _ => decide (color = .Red)

/- The links of the empty node lead back to it. -/
def left : LlrbNode κ ν → LlrbNode κ ν
  | .empty => .empty
  | .node _ _ _ left _ => left

def right : LlrbNode κ ν → LlrbNode κ ν
  | .empty => .empty
  | .node _ _ _ _ right => right

/- The empty node has none. -/
def entry : LlrbNode κ ν → Option (κ × ν)
  | .empty => none
  | .node entry _ _ _ _ => some entry

def setRight : LlrbNode κ ν → LlrbNode κ ν → LlrbNode κ ν
  | .empty, _ => .empty
  | .node entry color size left _, right => .node entry color size left right

section Fields
variable (e : κ × ν) (c : Color) (s : ℕ) (l r : LlrbNode κ ν)

@[simp] theorem isEmpty_empty : (empty : LlrbNode κ ν).isEmpty = true := rfl
@[simp] theorem isEmpty_node : (node e c s l r).isEmpty = decide (s = 0) := rfl
@[simp] theorem entry_node : (node e c s l r).entry = some e := rfl
@[simp] theorem size_node : (node e c s l r).size = s := rfl
@[simp] theorem red_node : (node e c s l r).red = decide (c = .Red) := rfl
@[simp] theorem left_node : (node e c s l r).left = l := rfl
@[simp] theorem right_node : (node e c s l r).right = r := rfl
@[simp] theorem setRight_node (r' : LlrbNode κ ν) :
    (node e c s l r).setRight r' = .node e c s l r' := rfl

theorem node_ne_empty : node e c s l r ≠ .empty := by
  intro h
  cases h

end Fields

def min : LlrbNode κ ν → LlrbNode κ ν
  | .empty => .empty
  | .node entry color size left right =>
    if left.isEmpty then .node entry color size left right else left.min

def max : LlrbNode κ ν → LlrbNode κ ν
  | .empty => .empty
  | .node entry color size left right =>
    if right.isEmpty then .node entry color size left right else right.max

/-! ### Rebalancing -/

def rotateLeft : LlrbNode κ ν → Option (LlrbNode κ ν)
  | .node entry color size left (.node rightEntry _ _ rightLeft rightRight) =>
    let newLeft := .node entry .Red (sizeAbove left rightLeft) left rightLeft
    some (.node rightEntry color size newLeft rightRight)
  | _ => none

def rotateRight : LlrbNode κ ν → Option (LlrbNode κ ν)
  | .node entry color size (.node leftEntry _ _ leftLeft leftRight) right =>
    let newRight := .node entry .Red (sizeAbove leftRight right) leftRight right
    some (.node leftEntry color size leftLeft newRight)
  | _ => none

def flipColor : LlrbNode κ ν → Option (LlrbNode κ ν)
  | .node entry color size (.node le lc ls ll lr) (.node re rc rs rl rr) =>
    some (.node entry color.opposite size (.node le lc.opposite ls ll lr)
      (.node re rc.opposite rs rl rr))
  | _ => none

/- Where the children of a node have changed. -/
def fixUp (entry : κ × ν) (color : Color) (left right : LlrbNode κ ν) : Option (LlrbNode κ ν) :=
  let n := node entry color (sizeAbove left right) left right
  (if n.right.red && !n.left.red then n.rotateLeft else some n).bind fun n =>
  (if n.left.red && n.left.left.red then n.rotateRight else some n).bind fun n =>
  if n.left.red && n.right.red then n.flipColor else some n

def fixRootColor : LlrbNode κ ν → LlrbNode κ ν
  | .empty => .empty
  | .node entry _ size left right => .node entry .Black size left right

def moveRedLeft (n : LlrbNode κ ν) : Option (LlrbNode κ ν) :=
  n.flipColor.bind fun n =>
  if n.right.left.red then
    n.right.rotateRight.bind fun newRight =>
    (n.setRight newRight).rotateLeft.bind flipColor
  else some n

def moveRedRight (n : LlrbNode κ ν) : Option (LlrbNode κ ν) :=
  n.flipColor.bind fun n =>
  if n.left.left.red then n.rotateRight.bind flipColor
  else some n

/- What is done before the removal goes on to the left, in `RemoveMin` and in `InnerErase`. -/
def readyLeft (n : LlrbNode κ ν) : Option (LlrbNode κ ν) :=
  if !n.left.isEmpty && !n.left.red && !n.left.left.red then n.moveRedLeft else some n

/- And before it goes on to the right. -/
def readyRight (n : LlrbNode κ ν) : Option (LlrbNode κ ν) :=
  (if n.left.red then n.rotateRight else some n).bind fun n =>
  if !n.right.isEmpty && !n.right.red && !n.right.left.red then n.moveRedRight else some n

/-! ### Entries -/

def toList : LlrbNode κ ν → List (κ × ν)
  | .empty => []
  | .node entry _ _ left right => left.toList ++ entry :: right.toList

@[simp] theorem toList_empty : (empty : LlrbNode κ ν).toList = [] := rfl

@[simp] theorem toList_node (entry : κ × ν) (color : Color) (size : ℕ) (left right : LlrbNode κ ν) :
    (node entry color size left right).toList = left.toList ++ entry :: right.toList := rfl

theorem toList_rotateLeft {n m : LlrbNode κ ν} (h : n.rotateLeft = some m) :
    m.toList = n.toList := by
  cases n with
  | empty => cases h
  | node e c s l r =>
    cases r with
    | empty => cases h
    | node re rc rs rl rr =>
      cases h
      simp

theorem toList_rotateRight {n m : LlrbNode κ ν} (h : n.rotateRight = some m) :
    m.toList = n.toList := by
  cases n with
  | empty => cases h
  | node e c s l r =>
    cases l with
    | empty => cases h
    | node le lc ls ll lr =>
      cases h
      simp

theorem toList_flipColor {n m : LlrbNode κ ν} (h : n.flipColor = some m) :
    m.toList = n.toList := by
  cases n with
  | empty => cases h
  | node e c s l r =>
    cases l with
    | empty => cases h
    | node le lc ls ll lr =>
      cases r with
      | empty => cases h
      | node re rc rs rl rr =>
        cases h
        simp

theorem toList_setRight {n right : LlrbNode κ ν} (h : right.toList = n.right.toList) :
    (n.setRight right).toList = n.toList := by
  cases n with
  | empty => rfl
  | node e c s l r =>
    have hsame : right.toList = r.toList := h
    simp [hsame]

/- A step that may be left out. -/
theorem toList_ite {n m : LlrbNode κ ν} {step : Option (LlrbNode κ ν)} {b : Bool}
    (hstep : ∀ m, step = some m → m.toList = n.toList)
    (h : (if b then step else some n) = some m) : m.toList = n.toList := by
  cases b with
  | true => exact hstep m h
  | false =>
    cases h
    rfl

theorem toList_fixUp {entry : κ × ν} {color : Color} {left right m : LlrbNode κ ν}
    (h : fixUp entry color left right = some m) :
    m.toList = left.toList ++ entry :: right.toList := by
  unfold fixUp at h
  obtain ⟨n, hn, h⟩ := Option.bind_eq_some_iff.mp h
  obtain ⟨n', hn', h⟩ := Option.bind_eq_some_iff.mp h
  rw [toList_ite (fun _ => toList_flipColor) h, toList_ite (fun _ => toList_rotateRight) hn',
    toList_ite (fun _ => toList_rotateLeft) hn, toList_node]

theorem toList_moveRedLeft {n m : LlrbNode κ ν} (h : n.moveRedLeft = some m) :
    m.toList = n.toList := by
  unfold moveRedLeft at h
  obtain ⟨flipped, hflip, h⟩ := Option.bind_eq_some_iff.mp h
  rw [← toList_flipColor hflip]
  refine toList_ite (fun m h => ?_) h
  obtain ⟨newRight, hright, h⟩ := Option.bind_eq_some_iff.mp h
  obtain ⟨rotated, hrotate, h⟩ := Option.bind_eq_some_iff.mp h
  rw [toList_flipColor h, toList_rotateLeft hrotate, toList_setRight (toList_rotateRight hright)]

theorem toList_moveRedRight {n m : LlrbNode κ ν} (h : n.moveRedRight = some m) :
    m.toList = n.toList := by
  unfold moveRedRight at h
  obtain ⟨flipped, hflip, h⟩ := Option.bind_eq_some_iff.mp h
  rw [← toList_flipColor hflip]
  refine toList_ite (fun m h => ?_) h
  obtain ⟨rotated, hrotate, h⟩ := Option.bind_eq_some_iff.mp h
  rw [toList_flipColor h, toList_rotateRight hrotate]

theorem toList_readyLeft {n m : LlrbNode κ ν} (h : n.readyLeft = some m) : m.toList = n.toList :=
  toList_ite (fun _ => toList_moveRedLeft) h

theorem toList_readyRight {n m : LlrbNode κ ν} (h : n.readyRight = some m) :
    m.toList = n.toList := by
  unfold readyRight at h
  obtain ⟨rotated, hrotate, h⟩ := Option.bind_eq_some_iff.mp h
  rw [toList_ite (fun _ => toList_moveRedRight) h, toList_ite (fun _ => toList_rotateRight) hrotate]

/- The children of a node that has as many entries as another have fewer. -/
theorem length_left_lt {n m : LlrbNode κ ν} (h : m.toList = n.toList) (hn : n ≠ .empty) :
    m.left.toList.length < n.toList.length := by
  rw [← h]
  cases m with
  | empty =>
    cases n with
    | empty => exact absurd rfl hn
    | node e c s l r => simp at h
  | node e c s l r =>
    simp only [left, toList_node, List.length_append, List.length_cons]
    omega

/-! ### Insertion and removal -/

section Comparator
variable [LinearOrder κ]

def innerInsert (key : κ) (value : ν) : LlrbNode κ ν → Option (LlrbNode κ ν)
  | .empty => some (.node (key, value) .Red 1 .empty .empty)
  | .node entry color size left right =>
    if size = 0 then some (.node (key, value) .Red 1 .empty .empty)
    else
      match compare entry.1 key with
      | .gt => (innerInsert key value left).bind fun left => fixUp entry color left right
      | .lt => (innerInsert key value right).bind fun right => fixUp entry color left right
      | .eq => some (.node (entry.1, value) color size left right)

def insert (n : LlrbNode κ ν) (key : κ) (value : ν) : Option (LlrbNode κ ν) :=
  (n.innerInsert key value).map fixRootColor

end Comparator

def removeMin (n : LlrbNode κ ν) : Option (LlrbNode κ ν) :=
  if hleft : n.left.isEmpty then some .empty
  else
    match hready : n.readyLeft with
    | some (.node entry color _ left right) =>
      left.removeMin.bind fun left => fixUp entry color left right
    | _ => none
termination_by n.toList.length
decreasing_by
  have hn : n ≠ .empty := by
    rintro rfl
    exact hleft rfl
  exact length_left_lt (toList_readyLeft hready) hn

section Comparator
variable [LinearOrder κ]

def innerErase (key : κ) (n : LlrbNode κ ν) : Option (LlrbNode κ ν) :=
  match n with
  | .empty => some .empty
  | .node e c s l r =>
    if s = 0 then some .empty
    else if compare key e.1 = .lt then
      match hready : (node e c s l r).readyLeft with
      | some (.node entry color _ left right) =>
        (innerErase key left).bind fun left => fixUp entry color left right
      | _ => none
    else
      match hready : (node e c s l r).readyRight with
      | some (.node entry color _ left right) =>
        if compare key entry.1 = .eq then
          if right.isEmpty then some .empty
          else
            right.min.entry.bind fun smallest =>
            right.removeMin.bind fun right => fixUp smallest color left right
        else (innerErase key right).bind fun right => fixUp entry color left right
      | _ => none
termination_by n.toList.length
decreasing_by
  · exact length_left_lt (toList_readyLeft hready) (node_ne_empty _ _ _ _ _)
  · have h := congrArg List.length (toList_readyRight hready)
    simp only [toList_node, List.length_append, List.length_cons] at h ⊢
    omega

def erase (n : LlrbNode κ ν) (key : κ) : Option (LlrbNode κ ν) :=
  (n.innerErase key).map fixRootColor

end Comparator

end LlrbNode

end PracticeApps.Firestore
