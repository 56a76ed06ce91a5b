import Unnest.Proofs.Run
import Unnest.Proofs.Sheet.Consistent
import Unnest.Proofs.Sheet.WellFormed

/-!
# Sheets with damaged parent links

A sheet drifts by checked edits and by writes of any parent into any slot.
After such writes parent links may say anything, and the checked edits that
trust them leave lists that are no better. One thing stays: no list names the
root. The check compares parents with lists, so that once it accepts the sheet
again the root cannot have a parent, and all links that lead from the root are
those of a tree.
-/

namespace Unnest.Sheet

/-- What checked edits and writes of parent links may have made of `s`. -/
inductive Drifts (s : Sheet) : Sheet → Prop
  | refl : Drifts s s
  | append {t u : Sheet} {parent id : NodeId} {content : Content} :
      Drifts s t → t.append parent content = .ok (id, u) → Drifts s u
  | move {t u : Sheet} {parent child : NodeId} :
      Drifts s t → t.move parent child = .ok u → Drifts s u
  | copyRule {t u : Sheet} {id copy : NodeId} {selector : String} :
      Drifts s t → t.copyRule id selector = .ok (copy, u) → Drifts s u
  | detach {t u : Sheet} {id : NodeId} : Drifts s t → t.detach id = .ok u → Drifts s u
  | setParent {t : Sheet} (id : NodeId) (parent : Option NodeId) :
      Drifts s t → Drifts s (t.setParent id parent)

def RootUnlisted (s : Sheet) : Prop :=
  ∀ id, rootId ∉ s.children id

theorem WellFormed.rootUnlisted {s : Sheet} (h : s.WellFormed) : s.RootUnlisted := by
  intro id hmem
  rw [h.mem_children_iff, h.parent?_root] at hmem
  cases hmem

namespace RootUnlisted

variable {s t : Sheet} (h : s.RootUnlisted)
include h

theorem append {parent id : NodeId} {content : Content}
    (happend : s.append parent content = .ok (id, t)) : t.RootUnlisted := by
  have hold (other : NodeId) : rootId ∉ (s.push ⟨content, some parent, []⟩).children other := by
    rw [children_push]
    split
    · exact List.not_mem_nil
    · exact h other
  intro other hmem
  rw [append_eq happend, grow, children_enlist] at hmem
  split at hmem
  · rcases List.mem_append.mp hmem with hmem | hnew
    · exact hold other hmem
    · exact rootId_ne_size s (List.mem_singleton.mp hnew)
  · exact hold other hmem

theorem move {parent child : NodeId} (hmove : s.move parent child = .ok t) :
    t.RootUnlisted := by
  obtain ⟨-, -, hroot, -⟩ := move_checks hmove
  intro other hmem
  rw [children_move hmove, List.mem_append] at hmem
  rcases hmem with hold | hnew
  · split at hold
    · exact h other (List.mem_filter.mp hold).1
    · exact h other hold
  · split at hnew
    · exact hroot (List.mem_singleton.mp hnew).symm
    · cases hnew

theorem copyRule {id copy : NodeId} {selector : String}
    (hcopy : s.copyRule id selector = .ok (copy, t)) : t.RootUnlisted := by
  intro other
  rw [children_copyRule hcopy]
  split
  · exact h id
  · split
    · exact List.not_mem_nil
    · exact h other

theorem detach {id : NodeId} (hdetach : s.detach id = .ok t) : t.RootUnlisted := by
  intro other
  rw [children_detach hdetach]
  split
  · exact fun hmem => h other (List.mem_filter.mp hmem).1
  · exact h other

theorem setParent (id : NodeId) (parent : Option NodeId) :
    (s.setParent id parent).RootUnlisted := by
  intro other
  rw [children_setParent]
  exact h other

/-- No edit and no written parent gives the root a place in a list. -/
theorem of_drifts (hdrifts : s.Drifts t) : t.RootUnlisted := by
  induction hdrifts with
  | refl => exact h
  | append _ happend ih => exact ih.append happend
  | move _ hmove ih => exact ih.move hmove
  | copyRule _ hcopy ih => exact ih.copyRule hcopy
  | detach _ hdetach ih => exact ih.detach hdetach
  | setParent id parent _ ih => exact ih.setParent id parent

theorem parent?_root (hvalid : s.validate = .ok ()) : s.parent? rootId = none := by
  cases hroot : s.parent? rootId with
  | none => rfl
  | some outer => exact absurd ((consistent_of_validate hvalid).mem_children hroot) (h outer)

theorem linked (hvalid : s.validate = .ok ()) : s.Linked :=
  linked_of_validate hvalid (h.parent?_root hvalid)

end RootUnlisted

end Unnest.Sheet
