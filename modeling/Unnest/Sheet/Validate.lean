import Unnest.Sheet.Basic
import Unnest.Sheet.Error

/-!
# Checking the links of a sheet

`validate` reports the first malformation that it meets. It looks at the root,
then at the nodes that can be reached from it, the last child of a node before
the others, and then at the parent links of all slots in order.
-/

namespace Unnest.Sheet

/-- Checks that each of the listed children of `lister` exists, names it as the
parent and was not met before; gives the ids that are fresh after them. -/
def checkChildren (s : Sheet) (lister : NodeId) :
    List NodeId → List NodeId → Except Malformation (List NodeId)
  | fresh, [] => .ok fresh
  | fresh, child :: children =>
      match s.get? child with
      | none => .error ⟨lister, .childMissing child⟩
      | some node =>
          if node.parent ≠ some lister then
            .error ⟨child, .parentMismatch lister node.parent⟩
          else if child ∈ fresh then
            s.checkChildren lister (fresh.erase child) children
          else
            .error ⟨child, .reachedTwice⟩

theorem length_checkChildren {s : Sheet} {lister : NodeId}
    {fresh children fresh' : List NodeId}
    (h : s.checkChildren lister fresh children = .ok fresh') :
    fresh'.length + children.length = fresh.length := by
  induction children generalizing fresh with
  | nil => simp_all [checkChildren]
  | cons child children ih =>
      rw [checkChildren] at h
      split at h
      · cases h
      · split at h
        · cases h
        · split at h
          · next hmem =>
              have := ih h
              have := List.length_erase_of_mem hmem
              have := List.length_pos_of_mem hmem
              simp only [List.length_cons]
              omega
          · cases h

/-- Whether `id` lists children without being a container. -/
def leafDefect? (s : Sheet) (id : NodeId) : Option Malformation :=
  match s.content? id with
  | none => none
  | some content =>
      if content.isContainer || (s.children id).isEmpty then none
      else some ⟨id, .leafWithChildren content.sort⟩

/-- Checks the nodes of `pending` and all that is below them. -/
def checkFrom (s : Sheet) (fresh : List NodeId) :
    List NodeId → Except Malformation Unit
  | [] => .ok ()
  | id :: pending =>
      match s.leafDefect? id with
      | some malformation => .error malformation
      | none =>
          match _h : s.checkChildren id fresh (s.children id) with
          | .error malformation => .error malformation
          | .ok fresh' => s.checkFrom fresh' ((s.children id).reverse ++ pending)
termination_by pending => fresh.length + pending.length
decreasing_by
  have := length_checkChildren _h
  simp only [List.length_append, List.length_reverse, List.length_cons]
  omega

def parentDefect? (s : Sheet) (id : NodeId) : Option Malformation :=
  match s.parent? id with
  | none => none
  | some parent =>
      if s.get? parent = none then some ⟨id, .parentMissing parent⟩
      else if id ∈ s.children parent then none
      else some ⟨id, .notListed parent⟩

/-- Accepts the sheet if its links are those of a tree. -/
def validate (s : Sheet) : Except Malformation Unit :=
  if s.isRoot rootId then
    match s.checkFrom (s.ids.erase rootId) [rootId] with
    | .error malformation => .error malformation
    | .ok () =>
        match s.ids.findSome? s.parentDefect? with
        | some malformation => .error malformation
        | none => .ok ()
  else .error ⟨rootId, .rootMissing⟩

end Unnest.Sheet
