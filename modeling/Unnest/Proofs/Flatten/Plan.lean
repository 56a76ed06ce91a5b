import Unnest.Flatten.Pass
import Unnest.Proofs.Sheet.Linked

/-!
# What the pass should make of a sheet

The result of the pass is described from the sheet before it alone. `Promoted`
rules go to the root as copies. `Emptied` rules have lost all their children by
that and go too, unless they are to be preserved. All other nodes stay where
they are, in their order; the children of a promoted rule are found under its
copy. `IsFlattening` says this of each slot, so that a sheet has one flattening
at most.

A copy carries the selectors that its rule had when its turn came. Promoted
rules around it were copies by then, whose one text stands for all that is
around them: `passItems` takes that into account.
-/

namespace Unnest.Flatten

open Selector

/-! ## Rules that go -/

/-- An attached rule that is nested and holds declarations. -/
def Promoted (s : Sheet) (id : NodeId) : Prop :=
  s.isAttached id = true ∧ s.isRule id = true ∧ s.parent? id ≠ some rootId ∧
    s.hasDeclarations id = true

instance (s : Sheet) : DecidablePred (Promoted s) :=
  fun _ => inferInstanceAs (Decidable (_ ∧ _))

/-- An attached rule that stays itself, but whose children are all rules that
are moved away or emptied in their turn. One without children is not meant. -/
inductive Emptied (s : Sheet) (Moved : NodeId → Prop) : NodeId → Prop
  | intro {id : NodeId} (attached : s.isAttached id = true) (isRule : s.isRule id = true)
      (stays : ¬ Moved id) (nonempty : s.children id ≠ [])
      (rules : ∀ child ∈ s.children id, s.isRule child = true)
      (gone : ∀ child ∈ s.children id, ¬ Moved child → Emptied s Moved child) :
      Emptied s Moved id

def Departs (s : Sheet) (preserveEmpty : Bool) (id : NodeId) : Prop :=
  Promoted s id ∨ preserveEmpty = false ∧ Emptied s (Promoted s) id

open Classical in
noncomputable def staying (s : Sheet) (preserveEmpty : Bool) (ids : List NodeId) :
    List NodeId :=
  ids.filter fun id => ¬ Departs s preserveEmpty id

def promotedRules (s : Sheet) : List NodeId :=
  s.walkRules.filter (Promoted s ·)

def newSlots (s : Sheet) (count : Nat) : List NodeId :=
  (List.range count).map (s.size + ·)

/-! ## Selectors of copies -/

/-- The selectors that a node, given with all its ancestors, hands down to the
rules in it. Those of a promoted rule are read off the text of its copy. -/
def passItems (s : Sheet) : List NodeId → List String
  | [] => []
  | id :: outer =>
      match s.selector? id with
      | none => []
      | some selector =>
          let selectors := within (passItems s outer) selector
          if Promoted s id then items (separator.intercalate selectors) else selectors

def copySelector (s : Sheet) (rule : NodeId) : String :=
  separator.intercalate
    (within (passItems s (s.ancestors rule)) ((s.selector? rule).getD ""))

/-! ## The result -/

/-- What `t` must be to be `s` with its nested rules flattened. -/
structure IsFlattening (s : Sheet) (preserveEmpty : Bool) (t : Sheet) : Prop where
  size : t.size = s.size + (promotedRules s).length
  content? {id : NodeId} : id < s.size → t.content? id = s.content? id
  content?_copy {k : Nat} {rule : NodeId} : (promotedRules s)[k]? = some rule →
    t.content? (s.size + k) = some (.rule (copySelector s rule))
  children_root : t.children rootId =
    staying s preserveEmpty (s.children rootId) ++ newSlots s (promotedRules s).length
  children {id : NodeId} : s.isAttached id = true → id ≠ rootId → ¬ Promoted s id →
    t.children id = staying s preserveEmpty (s.children id)
  children_copy {k : Nat} {rule : NodeId} : (promotedRules s)[k]? = some rule →
    t.children (s.size + k) = staying s preserveEmpty (s.children rule)
  children_promoted {rule : NodeId} : Promoted s rule → t.children rule = []
  parent?_root : t.parent? rootId = none
  parent?_departed {id : NodeId} : Departs s preserveEmpty id → t.parent? id = none
  parent? {id parent : NodeId} : s.isAttached id = true → ¬ Departs s preserveEmpty id →
    s.parent? id = some parent → ¬ Promoted s parent → t.parent? id = some parent
  parent?_moved {id rule : NodeId} {k : Nat} : s.isAttached id = true →
    ¬ Departs s preserveEmpty id → s.parent? id = some rule →
    (promotedRules s)[k]? = some rule → t.parent? id = some (s.size + k)
  parent?_copy {k : Nat} : k < (promotedRules s).length → t.parent? (s.size + k) = some rootId
  detached {id : NodeId} : id < s.size → s.isAttached id = false → t.get? id = s.get? id

end Unnest.Flatten
