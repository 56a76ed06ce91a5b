import Unnest.Selector.Items
import Unnest.Sheet.Basic
import Unnest.Sheet.Error

/-!
# Expanding nested selectors

A selector inside a rule is meant within the selector around it. `resolve` puts
one selector inside one other, `cross` a list inside a list, and `expandedSelectors`
goes through all rules around a rule. Expansion begins at the outermost of them:
the one under the root or under an at-rule.
-/

namespace Unnest

namespace Selector

/-- Stands for the selector around it. -/
def parentReference : Char := '&'

/-- The selector `child` inside `parent`: glued to it in place of a reference
at the front, a descendant of it otherwise. -/
def resolve (parent child : String) : String :=
  match child.toList with
  | [] => parent ++ " " ++ child
  | c :: rest =>
      if c = parentReference then parent ++ String.ofList rest else parent ++ " " ++ child

/-- All ways to resolve one of `children` inside one of `parents`; the parents
change slowest. -/
def cross (parents children : List String) : List String :=
  parents.flatMap fun parent => children.map (resolve parent)

/-- The items of `selector` inside the `outer` ones, if there are any. -/
def within (outer : List String) (selector : String) : List String :=
  if outer = [] then items selector else cross outer (items selector)

def expand : List String → List String
  | [] => []
  | selector :: outer => within (expand outer) selector

@[simp] theorem length_cross (parents children : List String) :
    (cross parents children).length = parents.length * children.length := by
  induction parents with
  | nil => simp [cross]
  | cons parent parents ih =>
      have : (cross (parent :: parents) children).length
          = children.length + (cross parents children).length := by
        simp [cross]
      rw [this, ih, List.length_cons, Nat.succ_mul, Nat.add_comm]

theorem mem_cross {parents children : List String} {selector : String} :
    selector ∈ cross parents children ↔
      ∃ parent ∈ parents, ∃ child ∈ children, resolve parent child = selector := by
  simp [cross]

end Selector

namespace Sheet

/-- The selectors of `id` and of the rules around it, innermost first, or none
if there are more than `limit` of them. -/
def selectorChain (s : Sheet) : Nat → NodeId → Option (List String)
  | limit, id =>
      match s.selector? id with
      | none => some []
      | some selector =>
          match limit with
          | 0 => none
          | limit + 1 =>
              match s.parent? id with
              | none => some [selector]
              | some parent => (s.selectorChain limit parent).map (selector :: ·)

/-- The selectors of the rule `id`, spelled out through all rules around it.
A node that is no rule has none. -/
def expandedSelectors (s : Sheet) (id : NodeId) : Except Malformation (List String) :=
  match s.selectorChain s.size id with
  | none => .error ⟨id, .endlessChain⟩
  | some chain => .ok (Selector.expand chain)

end Sheet

end Unnest
