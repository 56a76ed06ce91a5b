import Unnest.Proofs.Sheet.Forest

/-!
# Well-formed sheets

What the checked edits keep in order, for attached and detached nodes alike. A
well-formed sheet is linked, and a sheet that is nothing but a forest that can
be printed is well-formed.
-/

namespace Unnest

namespace Sheet

structure WellFormed (s : Sheet) : Prop where
  content?_root : s.content? rootId = some .root
  eq_rootId {id : NodeId} : s.content? id = some .root → id = rootId
  parent?_root : s.parent? rootId = none
  mem_children_iff {id child : NodeId} : child ∈ s.children id ↔ s.parent? child = some id
  nodup_children (id : NodeId) : (s.children id).Nodup
  isContainer {id : NodeId} {content : Content} :
    s.content? id = some content → s.children id ≠ [] → content.isContainer = true
  /-- Following parent links comes to an end everywhere. -/
  exists_chain (id : NodeId) : ∃ chain, s.Chain id chain
  hasBlock {id : NodeId} {name params : String} {block : Bool} :
    s.content? id = some (.atRule name params block) → s.children id ≠ [] → block = true

theorem WellFormed.linked {s : Sheet} (h : s.WellFormed) : s.Linked where
  content?_root := h.content?_root
  parent?_root := h.parent?_root
  agreesAt := fun _ => ⟨h.nodup_children _, h.mem_children_iff.mp, h.isContainer⟩
  mem_children := h.mem_children_iff.mpr

end Sheet

/-! ## Sheets that are a forest -/

namespace Forest

structure Slot (s : Sheet) (forest : Forest) (parent id : NodeId) (node : Node)
    (below : Forest) : Prop where
  children : node.children = below.roots
  nodup : below.roots.Nodup
  mirrors : below.Mirrors s id
  ne_root : node.content ≠ .root
  leaf : node.content.opensBlock false = false → below = nil
  parent : ∃ up, node.parent = some up ∧
    (up = parent ∧ id ∈ forest.roots ∨ up ∈ forest.ids ∧ id ∈ s.children up)

theorem nodup_roots {forest : Forest} (h : forest.ids.Nodup) : forest.roots.Nodup := by
  induction forest with
  | nil => exact List.nodup_nil
  | node id content below beside _ ihBeside =>
      obtain ⟨-, -, hbeside, -⟩ := fresh_of_node h (List.Subset.refl _)
      rw [ids, List.nodup_cons, List.mem_append, not_or] at h
      rw [roots, List.nodup_cons]
      exact ⟨fun hmem => h.1.2 (roots_subset_ids beside hmem), ihBeside hbeside⟩

theorem exists_slot {s : Sheet} {forest : Forest} {parent id : NodeId}
    (h : forest.Mirrors s parent) (hformed : forest.Formed) (hnodup : forest.ids.Nodup)
    (hid : id ∈ forest.ids) :
    ∃ node below, s.get? id = some node ∧ Slot s forest parent id node below := by
  induction forest generalizing parent with
  | nil => cases hid
  | node first content below beside ihBelow ihBeside =>
      obtain ⟨hroot, hleaf, hformedBelow, hformedBeside⟩ := hformed
      obtain ⟨-, ⟨hnodupBelow, -⟩, hnodupBeside, -⟩ := fresh_of_node hnodup (List.Subset.refl _)
      simp only [ids, List.mem_cons, List.mem_append] at hid
      rcases hid with rfl | hid | hid
      · exact ⟨_, below, h.1, rfl, nodup_roots hnodupBelow, h.2.1, hroot, hleaf, parent, rfl,
          .inl ⟨rfl, List.mem_cons_self⟩⟩
      · obtain ⟨node, inner, hget, hslot⟩ := ihBelow h.2.1 hformedBelow hnodupBelow hid
        obtain ⟨up, hup, hplace⟩ := hslot.parent
        refine ⟨node, inner, hget, hslot.children, hslot.nodup, hslot.mirrors, hslot.ne_root,
          hslot.leaf, up, hup, .inr ?_⟩
        rcases hplace with ⟨rfl, hmem⟩ | ⟨hmem, hchild⟩
        · exact ⟨List.mem_cons_self, h.children_node ▸ hmem⟩
        · exact ⟨List.mem_cons_of_mem _ (List.mem_append_left _ hmem), hchild⟩
      · obtain ⟨node, inner, hget, hslot⟩ := ihBeside h.2.2 hformedBeside hnodupBeside hid
        obtain ⟨up, hup, hplace⟩ := hslot.parent
        refine ⟨node, inner, hget, hslot.children, hslot.nodup, hslot.mirrors, hslot.ne_root,
          hslot.leaf, up, hup, ?_⟩
        rcases hplace with ⟨rfl, hmem⟩ | ⟨hmem, hchild⟩
        · exact .inl ⟨rfl, List.mem_cons_of_mem _ hmem⟩
        · exact .inr ⟨List.mem_cons_of_mem _ (List.mem_append_right _ hmem), hchild⟩

end Forest

namespace Sheet

private theorem exists_chain_of_mirrors {s : Sheet} {forest : Forest} {parent : NodeId}
    (h : forest.Mirrors s parent) (hparent : ∃ chain, s.Chain parent chain) :
    ∀ id ∈ forest.ids, ∃ chain, s.Chain id chain := by
  induction forest generalizing parent with
  | nil =>
      intro id hid
      cases hid
  | node first content below beside ihBelow ihBeside =>
      obtain ⟨chain, hchain⟩ := hparent
      have hfirst : s.Chain first (parent :: chain) := .cons h.parent?_node hchain
      intro id hid
      simp only [Forest.ids, List.mem_cons, List.mem_append] at hid
      rcases hid with rfl | hid | hid
      · exact ⟨_, hfirst⟩
      · exact ihBelow h.2.1 ⟨_, hfirst⟩ id hid
      · exact ihBeside h.2.2 ⟨_, hchain⟩ id hid

section holds

variable {s : Sheet} {forest : Forest} (h : s.Holds forest)
include h

private theorem parent?_root_of_holds : s.parent? rootId = none := by
  rw [parent?, h.root]
  rfl

variable (hslots : ∀ id < s.size, id ∈ rootId :: forest.ids)
include hslots

private theorem exists_chain_of_holds (id : NodeId) : ∃ chain, s.Chain id chain := by
  have hroot := parent?_root_of_holds h
  by_cases hid : id < s.size
  · rcases List.mem_cons.mp (hslots id hid) with rfl | hmem
    · exact ⟨[], .nil hroot⟩
    · exact exists_chain_of_mirrors h.mirrors ⟨[], .nil hroot⟩ id hmem
  · exact ⟨[], .nil (parent?_eq_none_of_size_le (Nat.le_of_not_lt hid))⟩

variable (hformed : forest.Formed) (hnodup : forest.ids.Nodup)
include hformed hnodup

private theorem cases_slot_of_holds {id : NodeId} (hid : id < s.size) :
    id = rootId ∨
      ∃ node below, s.get? id = some node ∧ Forest.Slot s forest rootId id node below := by
  rcases List.mem_cons.mp (hslots id hid) with rfl | hid
  · exact .inl rfl
  · exact .inr (Forest.exists_slot h.mirrors hformed hnodup hid)

private theorem mem_children_iff_of_holds {id child : NodeId} :
    child ∈ s.children id ↔ s.parent? child = some id := by
  constructor
  · intro hchild
    rcases cases_slot_of_holds h hslots hformed hnodup (lt_size_of_mem_children hchild) with
      rfl | ⟨node, below, hget, hslot⟩
    · rw [h.children_root] at hchild
      exact h.mirrors.parent?_of_mem_roots hchild
    · rw [children, hget] at hchild
      exact hslot.mirrors.parent?_of_mem_roots (hslot.children ▸ hchild)
  · intro hparent
    rcases cases_slot_of_holds h hslots hformed hnodup (lt_size_of_parent? hparent) with
      rfl | ⟨node, below, hget, hslot⟩
    · rw [parent?_root_of_holds h] at hparent
      cases hparent
    · obtain ⟨up, hup, hplace⟩ := hslot.parent
      rw [parent?, hget] at hparent
      cases hup.symm.trans hparent
      rcases hplace with ⟨rfl, hmem⟩ | ⟨-, hmem⟩
      · exact h.children_root ▸ hmem
      · exact hmem

private theorem nodup_children_of_holds (id : NodeId) : (s.children id).Nodup := by
  by_cases hid : id < s.size
  · rcases cases_slot_of_holds h hslots hformed hnodup hid with rfl | ⟨node, below, hget, hslot⟩
    · rw [h.children_root]
      exact Forest.nodup_roots hnodup
    · rw [children, hget]
      simpa [hslot.children] using hslot.nodup
  · rw [children_eq_nil_of_size_le (Nat.le_of_not_lt hid)]
    exact List.nodup_nil

/-- What a node with children says of itself. -/
private theorem opensBlock_of_holds {id : NodeId} {content : Content}
    (hcontent : s.content? id = some content) (hne : s.children id ≠ []) :
    content = .root ∨ content.opensBlock false = true := by
  rcases cases_slot_of_holds h hslots hformed hnodup (lt_size_of_content? hcontent) with
    rfl | ⟨node, below, hget, hslot⟩
  · rw [content?, h.root] at hcontent
    cases hcontent
    exact .inl rfl
  · rw [content?, hget] at hcontent
    cases hcontent
    right
    by_contra hleaf
    apply hne
    rw [children, hget]
    simp [hslot.children, hslot.leaf (by simpa using hleaf), Forest.roots]

end holds

/-- A sheet without other slots than those of its forest is well-formed. -/
theorem wellFormed_of_holds {s : Sheet} {forest : Forest} (h : s.Holds forest)
    (hformed : forest.Formed) (hnodup : (rootId :: forest.ids).Nodup)
    (hslots : ∀ id < s.size, id ∈ rootId :: forest.ids) : s.WellFormed := by
  have hnodup := (List.nodup_cons.mp hnodup).2
  exact {
    content?_root := by
      rw [content?, h.root]
      rfl
    eq_rootId := by
      intro id hid
      rcases cases_slot_of_holds h hslots hformed hnodup (lt_size_of_content? hid) with
        rfl | ⟨node, below, hget, hslot⟩
      · rfl
      · rw [content?, hget] at hid
        exact absurd (Option.some.inj hid) hslot.ne_root
    parent?_root := parent?_root_of_holds h
    mem_children_iff := mem_children_iff_of_holds h hslots hformed hnodup
    nodup_children := nodup_children_of_holds h hslots hformed hnodup
    isContainer := by
      intro id content hcontent hne
      rcases opensBlock_of_holds h hslots hformed hnodup hcontent hne with rfl | hopens
      · rfl
      · cases content <;> simp_all [Content.opensBlock, Content.isContainer]
    exists_chain := exists_chain_of_holds h hslots
    hasBlock := by
      intro id name params block hcontent hne
      simpa [Content.opensBlock] using
        opensBlock_of_holds h hslots hformed hnodup hcontent hne }

end Sheet

end Unnest
