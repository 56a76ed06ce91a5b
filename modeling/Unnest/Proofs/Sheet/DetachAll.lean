import Unnest.Proofs.Sheet.Edit

/-!
# Detaching several nodes

Nodes are detached one after the other. A detached node only loses the links
between itself and its parent, so what is left can be told from the sheet
before all of it, and the order does not matter.
-/

namespace Unnest.Sheet

def detachAll (s : Sheet) (ids : List NodeId) : Except EditError Sheet :=
  ids.foldlM detach s

theorem detachAll_cons (s : Sheet) (id : NodeId) (ids : List NodeId) :
    s.detachAll (id :: ids) =
      match s.detach id with
      | .ok t => t.detachAll ids
      | .error e => .error e := by
  unfold detachAll
  rw [List.foldlM_cons]
  cases s.detach id <;> rfl

theorem exists_of_detachAll_cons {s t : Sheet} {id : NodeId} {ids : List NodeId}
    (h : s.detachAll (id :: ids) = .ok t) :
    ∃ mid, s.detach id = .ok mid ∧ mid.detachAll ids = .ok t := by
  rw [detachAll_cons] at h
  split at h
  · next mid hmid => exact ⟨mid, hmid, h⟩
  · cases h

theorem exists_detachAll {s : Sheet} {ids : List NodeId} (hslots : ∀ id ∈ ids, id < s.size)
    (hroot : rootId ∉ ids) : ∃ t, s.detachAll ids = .ok t := by
  induction ids generalizing s with
  | nil => exact ⟨s, rfl⟩
  | cons id ids ih =>
      rw [List.mem_cons, not_or] at hroot
      obtain ⟨mid, hmid⟩ := exists_detach (hslots id List.mem_cons_self) (Ne.symm hroot.1)
      have hmidSlots : ∀ other ∈ ids, other < mid.size := by
        intro other hother
        rw [size_detach hmid]
        exact hslots other (List.mem_cons_of_mem _ hother)
      obtain ⟨t, ht⟩ := ih hmidSlots hroot.2
      exact ⟨t, by rw [detachAll_cons, hmid]; exact ht⟩

theorem content?_detachAll {s t : Sheet} {ids : List NodeId} (h : s.detachAll ids = .ok t)
    (other : NodeId) : t.content? other = s.content? other := by
  induction ids generalizing s with
  | nil =>
      cases h
      rfl
  | cons id ids ih =>
      obtain ⟨mid, hmid, hrest⟩ := exists_of_detachAll_cons h
      rw [ih hrest, content?_detach hmid]

theorem parent?_detachAll {s t : Sheet} {ids : List NodeId} (h : s.detachAll ids = .ok t)
    (other : NodeId) : t.parent? other = if other ∈ ids then none else s.parent? other := by
  induction ids generalizing s with
  | nil =>
      cases h
      rfl
  | cons id ids ih =>
      obtain ⟨mid, hmid, hrest⟩ := exists_of_detachAll_cons h
      rw [ih hrest, parent?_detach hmid]
      by_cases hid : other = id
      · simp [hid]
      · simp [hid]

theorem children_detachAll {s t : Sheet} {ids : List NodeId} (h : s.detachAll ids = .ok t)
    (other : NodeId) :
    t.children other =
      (s.children other).filter fun child => ¬ (child ∈ ids ∧ s.parent? child = some other) := by
  induction ids generalizing s with
  | nil =>
      cases h
      simp
  | cons id ids ih =>
      obtain ⟨mid, hmid, hrest⟩ := exists_of_detachAll_cons h
      rw [ih hrest, children_detach hmid]
      by_cases hparent : s.parent? id = some other
      · rw [if_pos hparent, List.filter_filter]
        apply List.filter_congr
        intro child _
        by_cases hchild : child = id
        · simp [hchild, hparent]
        · simp [parent?_detach hmid, hchild]
      · rw [if_neg hparent]
        apply List.filter_congr
        intro child _
        by_cases hchild : child = id
        · simp [hchild, parent?_detach hmid, hparent]
        · simp [hchild, parent?_detach hmid]

end Unnest.Sheet
