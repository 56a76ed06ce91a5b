import Unnest.Proofs.Sheet.Linked

/-!
# The order of a walk

The walk visits the nodes below the root and no others. In a linked sheet it
visits each of them after its parent.
-/

namespace Unnest.Sheet

theorem below_of_mem_walkFrom {s : Sheet} {fresh pending : List NodeId} {id : NodeId}
    (h : id ∈ s.walkFrom fresh pending) : ∃ top ∈ pending, s.Below top id := by
  fun_induction walkFrom s fresh pending with
  | case1 => simp at h
  | case2 fresh first pending hfresh ih =>
      rcases List.mem_cons.mp h with rfl | h
      · exact ⟨_, by simp, .refl⟩
      · obtain ⟨top, htop, hbelow⟩ := ih h
        rcases List.mem_append.mp htop with hchild | htop
        · exact ⟨first, by simp, Below.of_child hchild hbelow⟩
        · exact ⟨top, by simp [htop], hbelow⟩
  | case3 fresh first pending hfresh ih =>
      obtain ⟨top, htop, hbelow⟩ := ih h
      exact ⟨top, by simp [htop], hbelow⟩

theorem mem_walkFrom_of_mem {s : Sheet} {fresh pending : List NodeId} {id : NodeId}
    (hid : id ∈ pending) (hfresh : id ∈ fresh) : id ∈ s.walkFrom fresh pending := by
  fun_induction walkFrom s fresh pending with
  | case1 => simp at hid
  | case2 fresh first pending hfirst ih =>
      by_cases hne : id = first
      · simp [hne]
      · have hid : id ∈ pending := by simpa [hne] using hid
        exact List.mem_cons_of_mem _
          (ih (by simp [hid]) ((List.mem_erase_of_ne hne).mpr hfresh))
  | case3 fresh first pending hfirst ih =>
      rcases List.mem_cons.mp hid with rfl | hid
      · exact absurd hfresh hfirst
      · exact ih hid hfresh

theorem child_mem_walkFrom {s : Sheet} {fresh pending : List NodeId} {id child : NodeId}
    (hid : id ∈ s.walkFrom fresh pending) (hmem : child ∈ s.children id)
    (hfresh : child ∈ fresh) : child ∈ s.walkFrom fresh pending := by
  fun_induction walkFrom s fresh pending with
  | case1 => simp at hid
  | case2 fresh first pending hfirst ih =>
      by_cases hne : child = first
      · simp [hne]
      · have hfresh : child ∈ fresh.erase first := (List.mem_erase_of_ne hne).mpr hfresh
        rcases List.mem_cons.mp hid with rfl | hid
        · exact List.mem_cons_of_mem _ (mem_walkFrom_of_mem (by simp [hmem]) hfresh)
        · exact List.mem_cons_of_mem _ (ih hid hfresh)
  | case3 fresh first pending hfirst ih => exact ih hid hfresh

/-- A visited node was pending from the start or is listed by one before it. -/
theorem lister_precedes {s : Sheet} {fresh pending before after : List NodeId} {id : NodeId}
    (h : s.walkFrom fresh pending = before ++ id :: after) :
    id ∈ pending ∨ ∃ lister ∈ before, id ∈ s.children lister := by
  fun_induction walkFrom s fresh pending generalizing before with
  | case1 => simp at h
  | case2 fresh first pending hfirst ih =>
      cases before with
      | nil =>
          simp only [List.nil_append, List.cons.injEq] at h
          exact .inl (by simp [h.1])
      | cons other before =>
          simp only [List.cons_append, List.cons.injEq] at h
          obtain ⟨rfl, h⟩ := h
          rcases ih h with hpending | ⟨lister, hlister, hmem⟩
          · rcases List.mem_append.mp hpending with hmem | hpending
            · exact .inr ⟨first, by simp, hmem⟩
            · exact .inl (by simp [hpending])
          · exact .inr ⟨lister, by simp [hlister], hmem⟩
  | case3 fresh first pending hfirst ih =>
      rcases ih h with hpending | hlister
      · exact .inl (by simp [hpending])
      · exact .inr hlister

/-- A walk finds what has a slot and can be reached through child links,
whatever the links are. -/
theorem mem_walk_iff {s : Sheet} {id : NodeId} :
    id ∈ s.walk ↔ s.Below rootId id ∧ id < s.size := by
  constructor
  · intro hid
    obtain ⟨top, htop, hbelow⟩ := below_of_mem_walkFrom hid
    rw [List.mem_singleton.mp htop] at hbelow
    exact ⟨hbelow, s.lt_size_of_mem_walk hid⟩
  · rintro ⟨hid, hslot⟩
    induction hid with
    | refl => exact mem_walkFrom_of_mem (by simp) (mem_ids.mpr hslot)
    | child _ hmem ih =>
        -- Whatever lists a child has a slot itself.
        exact child_mem_walkFrom (ih (lt_size_of_mem_children hmem)) hmem (mem_ids.mpr hslot)

namespace Linked

variable {s : Sheet} (h : s.Linked)
include h

theorem mem_walk {id : NodeId} : id ∈ s.walk ↔ s.Below rootId id :=
  mem_walk_iff.trans (and_iff_left_of_imp h.lt_size)

theorem mem_walkRules {id : NodeId} :
    id ∈ s.walkRules ↔ s.Below rootId id ∧ s.isRule id = true := by
  rw [walkRules, List.mem_filter, h.mem_walk]

theorem parent_precedes {before after : List NodeId} {id parent : NodeId}
    (hwalk : s.walk = before ++ id :: after) (hparent : s.parent? id = some parent) :
    parent ∈ before := by
  rcases lister_precedes hwalk with hroot | ⟨lister, hlister, hmem⟩
  · rw [List.mem_singleton.mp hroot, h.parent?_root] at hparent
    cases hparent
  · have hbelow : s.Below rootId lister := h.mem_walk.mp (by simp [hwalk, hlister])
    rw [(h.agreesAt hbelow).parent?_child hmem] at hparent
    cases hparent
    exact hlister

theorem below_precedes {before after : List NodeId} {id ancestor : NodeId}
    (hwalk : s.walk = before ++ id :: after) (hbelow : s.Below rootId ancestor)
    (hid : s.Below ancestor id) (hne : id ≠ ancestor) : ancestor ∈ before := by
  induction hid generalizing before after with
  | refl => exact absurd rfl hne
  | @child mid id hmid hmem ih =>
      have hparent := (h.agreesAt (hbelow.trans hmid)).parent?_child hmem
      have hbefore := h.parent_precedes hwalk hparent
      by_cases heq : mid = ancestor
      · exact heq ▸ hbefore
      · obtain ⟨before', between, hsplit⟩ := List.append_of_mem hbefore
        have hwalk' : s.walk = before' ++ mid :: (between ++ id :: after) := by
          simp [hwalk, hsplit]
        rw [hsplit]
        exact List.mem_append_left _ (ih hwalk' heq)

theorem below_precedes_rule {before after : List NodeId} {id ancestor : NodeId}
    (hwalk : s.walkRules = before ++ id :: after) (hbelow : s.Below rootId ancestor)
    (hid : s.Below ancestor id) (hne : id ≠ ancestor) (hrule : s.isRule ancestor = true) :
    ancestor ∈ before := by
  obtain ⟨walked, rest, hsplit, hbefore, hrest⟩ := List.filter_eq_append_iff.mp hwalk
  obtain ⟨others, left, rfl, hothers, -, -⟩ := List.filter_eq_cons_iff.mp hrest
  rw [← List.append_assoc] at hsplit
  rcases List.mem_append.mp (h.below_precedes hsplit hbelow hid hne) with hmem | hmem
  · exact hbefore ▸ List.mem_filter.mpr ⟨hmem, hrule⟩
  · exact absurd hrule (hothers ancestor hmem)

end Linked

theorem nodup_walkRules (s : Sheet) : s.walkRules.Nodup :=
  s.nodup_walk.filter _

end Unnest.Sheet
