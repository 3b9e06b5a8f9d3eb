import FlowCheck.Workflow.Defect
import FlowCheck.Workflow.Document

/-! # Containment

Which activity contains which. Activities are given by their places in the document. Each is contained in at
most one other, and none in itself, directly or through others: containment is a forest. -/

namespace FlowCheck.Workflow

/-- The activity, if any, that contains each of the activities of a document. -/
structure Containment where
  parents : Array (Option Nat)
  deriving DecidableEq, Repr, Inhabited

namespace Containment

/-- The number of activities. -/
def size (c : Containment) : Nat := c.parents.size

/-- The activity that contains another. -/
def parent? (c : Containment) (i : Nat) : Option Nat := (c.parents[i]?).join

/-- The activities that another contains, in the order of the document. -/
def children (c : Containment) (i : Nat) : List Nat :=
  (List.range c.size).filter fun j => c.parent? j == some i

/-- The activities that no other contains, in the order of the document. -/
def roots (c : Containment) : List Nat := (List.range c.size).filter fun j => (c.parent? j).isNone

/-- The activity so many steps further out. -/
def climb (c : Containment) : (steps : Nat) → Nat → Option Nat
  | 0, i => some i
  | steps + 1, i => (c.parent? i).bind (c.climb steps)

/-- From some activity one can go further out as many steps as there are activities, so one goes round. -/
def isCyclic (c : Containment) : Bool := (List.range c.size).any fun i => (c.climb c.size i).isSome

/-- An activity and all that it contains down to a depth, each before what it contains. -/
def preorder (c : Containment) : (depth : Nat) → Nat → List Nat
  | 0, _ => []
  | depth + 1, i => i :: (c.children i).flatMap (c.preorder depth)

/-- All activities, each before what it contains; else they keep the order of the document. -/
def order (c : Containment) : List Nat := c.roots.flatMap (c.preorder c.size)

/-- Takes one more edge into account. -/
def addEdge (ids : List String) (found : Containment × List Defect) (edge : Edge) : Containment × List Defect :=
  match ids.idxOf? edge.parent, ids.idxOf? edge.child with
  | some p, some c =>
    if (found.1.parent? c).isSome then (found.1, found.2 ++ [.secondParent edge.child])
    else (⟨found.1.parents.setIfInBounds c (some p)⟩, found.2)
  | none, _ => (found.1, found.2 ++ [.unknownParent edge.parent])
  | _, none => (found.1, found.2 ++ [.unknownChild edge.child])

/-- The ids that stand further to the front as well. -/
def repeated (ids : List String) : List String := go [] ids
where
  /-- The same, when some ids were met before. -/
  go (met : List String) : List String → List String
    | [] => []
    | id :: ids => if id ∈ met then id :: go met ids else go (id :: met) ids

/-- The containment of the activities of a document, or all that is wrong with it. -/
def ofDocument (d : Document) : Except (List Defect) Containment :=
  let ids := d.activities.map (·.id)
  let duplicates := (repeated ids).map Defect.duplicateActivity
  let found := d.edges.foldl (addEdge ids) (⟨Array.replicate ids.length none⟩, duplicates)
  if found.2.isEmpty then if found.1.isCyclic then .error [.cycle] else .ok found.1
  else .error found.2

end Containment

end FlowCheck.Workflow
