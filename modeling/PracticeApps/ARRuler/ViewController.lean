import Mathlib.Data.List.Basic
import PracticeApps.Library.EventMachine

/-!
# ViewController.swift

A touch that hits a feature point adds a dot, and every second dot a measurement.
Nodes have an identity; `scene` lists the children of the scene's root node, in
the order in which they were added.
-/

namespace PracticeApps.ARRuler
open EventMachine

/- The `Float` operations of `calculate` and `updateText`. -/
structure FloatPlatform (F : Type) where
  sub : F → F → F
  add : F → F → F
  pow : F → ℕ → F
  sqrt : F → F
  abs : F → F
  hundredth : F
  text : F → String

structure SCNVector3 (F : Type) where
  x : F
  y : F
  z : F
  deriving DecidableEq

inductive Geometry where
  | none
  | sphere
  | text (string : String)
  deriving DecidableEq, Repr

structure SCNNode (F : Type) where
  id : ℕ
  geometry : Geometry
  position : SCNVector3 F
  deriving DecidableEq

structure ViewController (F : Type) where
  scene : List (SCNNode F)
  dotNodes : List (SCNNode F)
  textNode : SCNNode F
  nextNode : ℕ
  deriving DecidableEq

inductive Trap where
  | indexOutOfRange (index count : ℕ)
  deriving DecidableEq, Repr

variable {F : Type} (P : FloatPlatform F)

def removeFromParentNode (node : SCNNode F) (s : ViewController F) : ViewController F :=
  { s with scene := s.scene.filter fun n => n.id ≠ node.id }

def addChildNode (node : SCNNode F) (s : ViewController F) : ViewController F :=
  { s with scene := s.scene ++ [node] }

/- The text node as `updateText` makes it anew. -/
def updateText (text : String) (position : SCNVector3 F) (s : ViewController F) :
    ViewController F :=
  let s := removeFromParentNode s.textNode s
  let textNode : SCNNode F :=
    { id := s.nextNode
      geometry := .text text
      position := ⟨position.x, P.add position.y P.hundredth, position.z⟩ }
  addChildNode textNode { s with textNode := textNode, nextNode := s.nextNode + 1 }

def distance (start finish : SCNNode F) : F :=
  P.sqrt (P.add
    (P.add (P.pow (P.sub finish.position.x start.position.x) 2)
      (P.pow (P.sub finish.position.y start.position.y) 2))
    (P.pow (P.sub finish.position.z start.position.z) 2))

def measured (start finish : SCNNode F) : String := P.text (P.abs (distance P start finish))

def calculate (s : ViewController F) : Except Trap (ViewController F) :=
  match s.dotNodes[0]?, s.dotNodes[1]? with
  | some start, some finish =>
    .ok (updateText P (measured P start finish) finish.position s)
  | none, _ => .error (.indexOutOfRange 0 s.dotNodes.length)
  | some _, none => .error (.indexOutOfRange 1 s.dotNodes.length)

def addDot (hitResult : SCNVector3 F) (s : ViewController F) : Except Trap (ViewController F) :=
  let dotNode : SCNNode F := { id := s.nextNode, geometry := .sphere, position := hitResult }
  let s := addChildNode dotNode { s with nextNode := s.nextNode + 1 }
  let s := { s with dotNodes := s.dotNodes ++ [dotNode] }
  if 2 ≤ s.dotNodes.length then calculate P s else .ok s

def clearDots (s : ViewController F) : ViewController F :=
  { s.dotNodes.foldl (fun s dot => removeFromParentNode dot s) s with dotNodes := [] }

/- A touch comes with the results of its hit test, nearest first. -/
def touchesBegan (s : ViewController F) (hitTestResults : List (SCNVector3 F)) :
    Except Trap (ViewController F) :=
  let s := if 2 ≤ s.dotNodes.length then clearDots s else s
  match hitTestResults.head? with
  | none => .ok s
  | some hitResult => addDot P hitResult s

/- The empty text node of the property's initial value is in no scene. -/
def launch (origin : SCNVector3 F) : ViewController F :=
  { scene := [], dotNodes := [], textNode := ⟨0, .none, origin⟩, nextNode := 1 }

end PracticeApps.ARRuler
