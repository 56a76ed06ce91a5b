import Unnest.Proofs.Sheet.Consistent
import Unnest.Proofs.Sheet.Order

/-!
# Attached nodes

`walk` goes down from the root and `isAttached` goes up by parent links. In a
sheet that the check accepts they find the same nodes if the root names no
parent. The check does not look for one: a detached node may list the root, and
then no chain of parents ends at the root any more, so that all that a walk
finds below the root counts as detached.
-/

namespace Unnest.Sheet

namespace Consistent

variable {s : Sheet} (h : s.Consistent)
include h

theorem mem_walk {id : NodeId} : id ∈ s.walk ↔ s.Below rootId id := by
  have hlinked := h.linked_setParent
  refine mem_walk_iff.trans (and_iff_left_of_imp fun hid => ?_)
  simpa using hlinked.lt_size (below_setParent_iff.mpr hid)

theorem isAttached_iff {id : NodeId} :
    s.isAttached id = true ↔ id ∈ s.walk ∧ (s.parent? rootId = none ∨ id = rootId) := by
  rw [h.mem_walk]
  cases hroot : s.parent? rootId with
  | none =>
      have hlinked := linked_of_validate h.validate_eq_ok hroot
      rw [hlinked.isAttached_iff, and_iff_left (.inl rfl)]
  | some outer =>
      by_cases hid : id = rootId
      · subst hid
        simp [isAttached, Below.refl]
      · simp [h.isAttached_eq_false hroot hid, hid]

end Consistent

private theorem eq_root_of_mem_walk {s : Sheet} (hchildren : s.children rootId = []) {id : NodeId}
    (hid : id ∈ s.walk) : id = rootId := by
  rcases (mem_walk_iff.mp hid).1.cases_top with heq | ⟨child, hchild, -⟩
  · exact heq
  · rw [hchildren] at hchild
    cases hchild

/-- In an accepted sheet what counts as attached is found by a walk. The
converse holds of the root, and of all nodes exactly if the root names no parent
or has no children. -/
theorem isAttached_iff_mem_walk {s : Sheet} (h : s.validate = .ok ()) :
    (∀ id, s.isAttached id = true ↔
      id ∈ s.walk ∧ (s.parent? rootId = none ∨ id = rootId)) ∧
    ((∀ id, s.isAttached id = true ↔ id ∈ s.walk) ↔
      s.parent? rootId = none ∨ s.children rootId = []) := by
  have hs := consistent_of_validate h
  refine ⟨fun id => hs.isAttached_iff, ?_⟩
  constructor
  · intro hagree
    by_contra hneither
    obtain ⟨hparent, hchildren⟩ := not_or.mp hneither
    obtain ⟨child, hchild⟩ := List.exists_mem_of_ne_nil _ hchildren
    have hwalk := hs.mem_walk.mpr (.child .refl hchild)
    have hattached := hs.isAttached_iff.mp ((hagree child).mpr hwalk)
    exact hs.ne_root_of_mem_children .refl hchild (hattached.2.resolve_left hparent)
  · rintro (hparent | hchildren) id
    · rw [hs.isAttached_iff, and_iff_left (.inl hparent)]
    · rw [hs.isAttached_iff]
      exact and_iff_left_of_imp fun hid => .inr (eq_root_of_mem_walk hchildren hid)

/-- The root of `.a { }` with a detached rule that lists it as a child. -/
def strayRootSheet : Sheet where
  nodes := #[⟨.root, some 2, [1]⟩, ⟨.rule ".a", some 0, []⟩, ⟨.rule ".b", none, [0]⟩]
  nonempty := by decide

theorem isAttached_iff_mem_walk_strayRootSheet :
    strayRootSheet.validate = .ok () ∧
      (∀ id, strayRootSheet.isAttached id = true ↔
        id ∈ strayRootSheet.walk ∧ (strayRootSheet.parent? rootId = none ∨ id = rootId)) ∧
      ((∀ id, strayRootSheet.isAttached id = true ↔ id ∈ strayRootSheet.walk) ↔
        strayRootSheet.parent? rootId = none ∨ strayRootSheet.children rootId = []) := by
  have hvalid : strayRootSheet.validate = .ok () := by decide +kernel
  exact ⟨hvalid, isAttached_iff_mem_walk hvalid⟩

/-- The rule is found by a walk, but counts as detached. -/
theorem not_isAttached_of_mem_walk_strayRootSheet :
    strayRootSheet.validate = .ok () ∧
      ¬ ∀ id, strayRootSheet.isAttached id = true ↔ id ∈ strayRootSheet.walk := by
  refine ⟨by decide +kernel, fun hagree => ?_⟩
  have hwalk : 1 ∈ strayRootSheet.walk :=
    mem_walk_iff.mpr ⟨.child .refl (by decide), by decide⟩
  have hattached := (hagree 1).mpr hwalk
  revert hattached
  decide

end Unnest.Sheet
