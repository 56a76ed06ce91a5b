import Unnest.Sheet.Basic

/-!
# Walking a sheet

`ancestors` follows parent links upwards and `walk` follows child links from
the root, parents before children and siblings in order. Links may be damaged,
so neither relies on them to come to an end: `ancestors` makes at most as many
steps as there are slots, and `walk` keeps the ids it has not met yet and
visits each of them once.
-/

namespace Unnest.Sheet

def ancestorsWithin (s : Sheet) : Nat → NodeId → List NodeId
  | 0, _ => []
  | steps + 1, id =>
      match s.parent? id with
      | none => []
      | some parent => parent :: s.ancestorsWithin steps parent

/-- The parents of `id`, nearest first. The last one may be without a slot. -/
def ancestors (s : Sheet) (id : NodeId) : List NodeId :=
  s.ancestorsWithin s.size id

/-- Whether following parents from `id` ends at the root. -/
def isAttached (s : Sheet) (id : NodeId) : Bool :=
  id == rootId || (s.ancestors id).getLast? == some rootId

/-- Visits the ids of `pending` and what lies below them, first come first
visited. An id that is not in `fresh` was met before, or has no slot. -/
def walkFrom (s : Sheet) (fresh : List NodeId) : List NodeId → List NodeId
  | [] => []
  | id :: pending =>
      if id ∈ fresh then
        id :: s.walkFrom (fresh.erase id) (s.children id ++ pending)
      else
        s.walkFrom fresh pending
termination_by pending => (fresh.length, pending.length)
decreasing_by
  · exact Prod.Lex.left _ _ (length_erase_lt (by assumption))
  · exact Prod.Lex.right _ (by simp)

/-- All ids that can be reached from the root, in document order. -/
def walk (s : Sheet) : List NodeId :=
  s.walkFrom s.ids [rootId]

def walkRules (s : Sheet) : List NodeId :=
  s.walk.filter s.isRule

theorem mem_fresh_of_mem_walkFrom (s : Sheet) {fresh pending : List NodeId} {id : NodeId}
    (h : id ∈ s.walkFrom fresh pending) : id ∈ fresh := by
  fun_induction walkFrom s fresh pending with
  | case1 => simp at h
  | case2 fresh first pending hfresh ih =>
      rcases List.mem_cons.mp h with rfl | h
      · exact hfresh
      · exact List.mem_of_mem_erase (ih h)
  | case3 fresh first pending hfresh ih => exact ih h

theorem nodup_walkFrom (s : Sheet) {fresh pending : List NodeId} (h : fresh.Nodup) :
    (s.walkFrom fresh pending).Nodup := by
  fun_induction walkFrom s fresh pending with
  | case1 => simp
  | case2 fresh first pending hfresh ih =>
      refine List.nodup_cons.mpr ⟨?_, ih (h.erase first)⟩
      intro hmem
      have := s.mem_fresh_of_mem_walkFrom hmem
      exact h.not_mem_erase this
  | case3 fresh first pending hfresh ih => exact ih h

theorem nodup_walk (s : Sheet) : s.walk.Nodup :=
  s.nodup_walkFrom s.nodup_ids

theorem lt_size_of_mem_walk (s : Sheet) {id : NodeId} (h : id ∈ s.walk) : id < s.size :=
  mem_ids.mp (s.mem_fresh_of_mem_walkFrom h)

theorem walk_eq_cons (s : Sheet) :
    s.walk = rootId :: s.walkFrom (s.ids.erase rootId) (s.children rootId) := by
  have hroot : rootId ∈ s.ids := mem_ids.mpr s.size_pos
  rw [walk, walkFrom, if_pos hroot, List.append_nil]

end Unnest.Sheet
