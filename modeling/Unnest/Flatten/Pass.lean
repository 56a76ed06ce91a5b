import Unnest.Flatten.Error
import Unnest.Flatten.Options
import Unnest.Run
import Unnest.Selector.Expand
import Unnest.Sheet.Validate

/-!
# Flattening nested rules

The pass moves every nested rule that holds declarations to the end of the
root. Rules take their turns in document order. One whose turn comes is
replaced by a copy at the root, which carries its expanded selectors and takes
its children along, so that the rules below it still find it around them.
A rule that loses its last child by such a move is removed, and so are the
rules around it that are emptied by that, unless the options keep them.

Rules at top level and rules without declarations stay where they are.
-/

namespace Unnest.Flatten

open RunM

def separator : String := ", "

def edit (change : Sheet → Except EditError Sheet) : RunM FlattenError Unit :=
  (RunM.edit change).mapError .ofEdit

def joinedSelector (s : Sheet) (rule : NodeId) : Except FlattenError String :=
  match s.expandedSelectors rule with
  | .error malformation => .error (.malformed malformation)
  | .ok selectors => .ok (separator.intercalate selectors)

/-- Puts a copy of `rule` at the end of the root in place of the rule itself. -/
def promote (rule : NodeId) : RunM FlattenError Unit := do
  let selector ← settle (joinedSelector (← getSheet) rule)
  record (.promoting rule selector)
  let copy ← (create (·.copyRule rule selector)).mapError .ofEdit
  edit (·.move rootId copy)
  edit (·.detach rule)

/-- Removes the nodes of `path` up to the first that is not a rule without
children. Gives their number. -/
def prune : List NodeId → RunM FlattenError Nat
  | [] => return 0
  | id :: path => do
      let s ← getSheet
      if s.isRule id ∧ s.children id = [] then
        edit (·.detach id)
        record (.removed id)
        return (← prune path) + 1
      else return 0

/-- The parent of `rule` if the rule has to be promoted: it is nested and holds
declarations. -/
def outerParent? (s : Sheet) (rule : NodeId) : Option NodeId :=
  (s.parent? rule).filter fun parent => parent != rootId && s.hasDeclarations rule

def visit (options : Options) (tally : Tally) (rule : NodeId) : RunM FlattenError Tally := do
  let s ← getSheet
  if !s.isAttached rule then
    return tally
  let tally := { tally with visited := tally.visited + 1 }
  match outerParent? s rule with
  | none => return tally
  | some parent =>
      promote rule
      let tally := { tally with promoted := tally.promoted + 1 }
      if options.preserveEmpty then
        return tally
      let removed ← prune (parent :: (← getSheet).ancestors parent)
      return { tally with pruned := tally.pruned + removed }

/-- The whole pass. A malformed sheet is refused before anything is changed. -/
def pass (options : Options) : RunM FlattenError Tally := do
  record .pass
  let s ← getSheet
  settle (s.validate.mapError .malformed)
  let tally ← s.walkRules.foldlM (visit options) {}
  record (.flattened tally)
  return tally

end Unnest.Flatten
