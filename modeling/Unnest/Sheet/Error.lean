import Unnest.Node

/-!
# What can be wrong with a sheet

A `Malformation` names a node and the way in which its links or its content
break the shape of a tree. An `EditError` is the reason why an edit was
refused. Both have their wording here.
-/

namespace Unnest

inductive Defect where
  /-- Slot zero does not hold the root. -/
  | rootMissing
  /-- A node of a sort that holds no others lists children. -/
  | leafWithChildren (sort : String)
  | childMissing (child : NodeId)
  /-- The node is listed under `lister` and names another parent, or none. -/
  | parentMismatch (lister : NodeId) (actual : Option NodeId)
  | reachedTwice
  | parentMissing (parent : NodeId)
  /-- The node names a parent whose list does not have it. -/
  | notListed (parent : NodeId)
  /-- Following parent links never ends. -/
  | endlessChain
deriving DecidableEq

structure Malformation where
  node : NodeId
  defect : Defect
deriving DecidableEq

inductive EditError where
  | unknownNode (node : NodeId)
  | notAContainer (node : NodeId)
  | notARule (node : NodeId)
  | duplicateRoot
  | cannotRemoveRoot
  | wouldCreateCycle (node parent : NodeId)
  | malformed (malformation : Malformation)
deriving DecidableEq

/-! ## Wording -/

def showOptional : Option NodeId → String
  | none => "None"
  | some id => "Some(" ++ toString id ++ ")"

def Defect.message : Defect → String
  | rootMissing => "first node is not the root"
  | leafWithChildren sort => s!"{sort} node has children"
  | childMissing child => s!"child {child} does not exist"
  | parentMismatch lister actual =>
      s!"listed as a child of {lister} but its parent is {showOptional actual}"
  | reachedTwice => "reachable more than once"
  | parentMissing parent => s!"parent {parent} does not exist"
  | notListed parent => s!"parent {parent} does not list it as a child"
  | endlessChain => "parent chain does not reach the root"

def EditError.message : EditError → String
  | unknownNode node => s!"Node {node} does not exist in this tree"
  | notAContainer node => s!"Node {node} cannot hold children"
  | notARule node => s!"Node {node} is not a rule"
  | duplicateRoot => "A tree has exactly one root"
  | cannotRemoveRoot => "The root node cannot be removed"
  | wouldCreateCycle node parent => s!"Moving node {node} under {parent} would create a cycle"
  | malformed ⟨node, defect⟩ => s!"Malformed tree at node {node}: {defect.message}"

end Unnest
