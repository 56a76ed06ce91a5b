import Unnest.Proofs.Sheet.Consistent

/-!
# What the check finds

`TreeLinked` says node by node which links a sheet may have, and `Defect.IsAt`
what each report of the check claims of its node. The check accepts exactly the
sheets that are linked so, and what it reports of any other is true.

Only a node that is reached twice takes an argument: the check knows no more
than that it has met the node before. `Explored` is what holds of the ids it
has met, and by this the node was listed twice in one place.
-/

namespace Unnest

def Defect.IsAt (s : Sheet) (node : NodeId) : Defect → Prop
  | rootMissing => node = rootId ∧ s.content? rootId ≠ some .root
  | leafWithChildren sort => s.Below rootId node ∧ s.children node ≠ [] ∧
      ∃ content, s.content? node = some content ∧ content.isContainer = false ∧
        content.sort = sort
  | childMissing child => s.Below rootId node ∧ child ∈ s.children node ∧ s.get? child = none
  | parentMismatch lister actual => s.Below rootId lister ∧ node ∈ s.children lister ∧
      s.get? node ≠ none ∧ s.parent? node = actual ∧ actual ≠ some lister
  | reachedTwice => ∃ lister, s.Below rootId lister ∧ node ∈ s.children lister ∧
      s.parent? node = some lister ∧ (node = rootId ∨ 1 < (s.children lister).count node)
  | parentMissing parent => s.parent? node = some parent ∧ s.get? parent = none
  | notListed parent => s.parent? node = some parent ∧ s.get? parent ≠ none ∧
      node ∉ s.children parent
  | endlessChain => False

namespace Sheet

/-- The links are those of a tree, as far as they can be reached from the root,
and whatever names a parent is listed by it. -/
structure TreeLinked (s : Sheet) : Prop where
  isRoot : s.isRoot rootId = true
  isContainer {id : NodeId} : s.Below rootId id → s.children id ≠ [] →
    ∃ content, s.content? id = some content ∧ content.isContainer = true
  child {id child : NodeId} : s.Below rootId id → child ∈ s.children id →
    child < s.size ∧ child ≠ rootId ∧ s.parent? child = some id ∧
      (s.children id).count child = 1
  parent {id parent : NodeId} : s.parent? id = some parent →
    parent < s.size ∧ id ∈ s.children parent

/-! ## What is accepted -/

theorem TreeLinked.consistent {s : Sheet} (h : s.TreeLinked) : s.Consistent where
  content?_root := by simpa [Sheet.isRoot] using h.isRoot
  agreesAt := by
    intro id hid
    refine ⟨?_, fun hchild => (h.child hid hchild).2.2.1, ?_⟩
    · rw [List.nodup_iff_count_le_one]
      intro child
      by_cases hchild : child ∈ s.children id
      · exact Nat.le_of_eq (h.child hid hchild).2.2.2
      · rw [List.count_eq_zero_of_not_mem hchild]
        exact Nat.zero_le 1
    · intro content hcontent hne
      obtain ⟨content', hcontent', hcontainer⟩ := h.isContainer hid hne
      rw [hcontent, Option.some.injEq] at hcontent'
      rw [hcontent', hcontainer]
  root_not_listed := fun hid hlisted => (h.child hid hlisted).2.1 rfl
  mem_children := fun hparent => (h.parent hparent).2

theorem Consistent.treeLinked {s : Sheet} (h : s.Consistent) : s.TreeLinked where
  isRoot := by simp [Sheet.isRoot, h.content?_root]
  isContainer := by
    intro id hid hne
    obtain ⟨child, hchild⟩ := List.exists_mem_of_ne_nil _ hne
    obtain ⟨content, hcontent⟩ := exists_content? (lt_size_of_mem_children hchild)
    exact ⟨content, hcontent, (h.agreesAt hid).isContainer hcontent hne⟩
  child := by
    intro id child hid hchild
    have hparent := (h.agreesAt hid).parent?_child hchild
    exact ⟨lt_size_of_parent? hparent, h.ne_root_of_mem_children hid hchild, hparent,
      List.count_eq_one_of_mem (h.agreesAt hid).nodup hchild⟩
  parent := fun hparent =>
    have hlisted := h.mem_children hparent
    ⟨lt_size_of_mem_children hlisted, hlisted⟩

theorem treeLinked_iff_consistent {s : Sheet} : s.TreeLinked ↔ s.Consistent :=
  ⟨TreeLinked.consistent, Consistent.treeLinked⟩

/-! ## What is reported of one node -/

variable {s : Sheet}

theorem isAt_of_leafDefect? {id : NodeId} {malformation : Malformation}
    (hid : s.Below rootId id) (h : s.leafDefect? id = some malformation) :
    malformation.defect.IsAt s malformation.node := by
  rw [leafDefect?] at h
  split at h
  · cases h
  · next content hcontent =>
      split at h
      · cases h
      · next hleaf =>
          cases h
          rw [Bool.not_eq_true, Bool.or_eq_false_iff] at hleaf
          exact ⟨hid, List.isEmpty_eq_false_iff.mp hleaf.2, content, hcontent, hleaf.1, rfl⟩

theorem isAt_of_parentDefect? {id : NodeId} {malformation : Malformation}
    (h : s.parentDefect? id = some malformation) :
    malformation.defect.IsAt s malformation.node := by
  rw [parentDefect?] at h
  split at h
  · cases h
  · next parent hparent =>
      split at h
      · next hmissing =>
          cases h
          exact ⟨hparent, hmissing⟩
      · next hslot =>
          split at h
          · cases h
          · next hlisted =>
              cases h
              exact ⟨hparent, hslot, hlisted⟩

theorem exists_of_checkChildren_error {lister : NodeId} {fresh children : List NodeId}
    {malformation : Malformation}
    (h : s.checkChildren lister fresh children = .error malformation) :
    ∃ before child after, children = before ++ child :: after ∧
      (s.get? child = none ∧ malformation = ⟨lister, .childMissing child⟩ ∨
        (∃ node, s.get? child = some node ∧ node.parent ≠ some lister ∧
          malformation = ⟨child, .parentMismatch lister node.parent⟩) ∨
        s.parent? child = some lister ∧ (child ∉ fresh ∨ child ∈ before) ∧
          malformation = ⟨child, .reachedTwice⟩) := by
  induction children generalizing fresh with
  | nil => cases h
  | cons first children ih =>
      rw [checkChildren] at h
      split at h
      · next hmissing =>
          cases h
          exact ⟨[], first, children, rfl, .inl ⟨hmissing, rfl⟩⟩
      · next node hnode =>
          split at h
          · next hparent =>
              cases h
              exact ⟨[], first, children, rfl, .inr (.inl ⟨node, hnode, hparent, rfl⟩)⟩
          · next hparent =>
              have hparent : s.parent? first = some lister := by
                rw [parent?, hnode]
                exact not_not.mp hparent
              split at h
              · obtain ⟨before, child, after, rfl, hwhy⟩ := ih h
                refine ⟨first :: before, child, after, rfl, hwhy.imp_right (.imp_right ?_)⟩
                rintro ⟨hchild, hmet, heq⟩
                refine ⟨hchild, ?_, heq⟩
                by_cases hfirst : child = first
                · exact .inr (hfirst ▸ List.mem_cons_self)
                · rw [List.mem_erase_of_ne hfirst] at hmet
                  exact hmet.imp_right (List.mem_cons_of_mem _)
              · next hmet =>
                  cases h
                  exact ⟨[], first, children, rfl, .inr (.inr ⟨hparent, .inl hmet, rfl⟩)⟩

/-! ## What is reported on the way -/

/-- What holds of the ids that the check has met: none of them is met again by a
node that names it as a child of its own, since the parent of each is done. -/
structure Explored (s : Sheet) (fresh pending : List NodeId) : Prop where
  nodup_fresh : fresh.Nodup
  nodup_pending : pending.Nodup
  not_fresh {id : NodeId} : id ∈ pending → id ∉ fresh
  below {id : NodeId} : id ∈ pending → s.Below rootId id
  parent_done {id parent : NodeId} : id ∉ fresh → id ≠ rootId → s.parent? id = some parent →
    parent ∉ pending ∧ parent ∉ fresh

theorem explored_start (s : Sheet) : s.Explored (s.ids.erase rootId) [rootId] where
  nodup_fresh := s.nodup_ids.erase rootId
  nodup_pending := List.nodup_singleton rootId
  not_fresh := by
    intro id hid
    rw [List.mem_singleton.mp hid]
    exact s.nodup_ids.not_mem_erase
  below := by
    intro id hid
    rw [List.mem_singleton.mp hid]
    exact .refl
  parent_done := by
    intro id parent hid hne hparent
    exact absurd ((List.mem_erase_of_ne hne).mpr (mem_ids.mpr (lt_size_of_parent? hparent))) hid

namespace Explored

variable {fresh pending : List NodeId} {first : NodeId} (h : s.Explored fresh (first :: pending))
include h

theorem step (hnodup : (s.children first).Nodup)
    (hchildren : ∀ child ∈ s.children first, child ∈ fresh ∧ s.parent? child = some first) :
    s.Explored (fresh.diff (s.children first)) ((s.children first).reverse ++ pending) := by
  have hfirst := h.not_fresh List.mem_cons_self
  obtain ⟨hleft, hpending⟩ := List.nodup_cons.mp h.nodup_pending
  refine ⟨h.nodup_fresh.diff, ?_, ?_, ?_, ?_⟩
  · exact nodup_pending_step h.not_fresh h.nodup_pending hnodup fun child hchild =>
      (hchildren child hchild).1
  · exact fun hid => not_fresh_step h.nodup_fresh h.not_fresh hid
  · exact fun hid => below_step h.below hid
  · intro id parent hid hne hparent
    have hdone : parent ∉ fresh ∧ parent ∉ pending := by
      rw [h.nodup_fresh.mem_sdiff_iff, not_and_not_right] at hid
      by_cases hfresh : id ∈ fresh
      · -- the node was met just now
        rw [(hchildren id (hid hfresh)).2, Option.some.injEq] at hparent
        rw [← hparent]
        exact ⟨hfirst, hleft⟩
      · obtain ⟨hahead, hmet⟩ := h.parent_done hfresh hne hparent
        exact ⟨hmet, fun hmem => hahead (List.mem_cons_of_mem _ hmem)⟩
    refine ⟨?_, fun hmem => hdone.1 (List.diff_subset _ _ hmem)⟩
    rw [List.mem_append, List.mem_reverse, not_or]
    exact ⟨fun hmem => hdone.1 (hchildren parent hmem).1, hdone.2⟩

private theorem isAt_of_checkChildren {malformation : Malformation}
    (hcheck : s.checkChildren first fresh (s.children first) = .error malformation) :
    malformation.defect.IsAt s malformation.node := by
  have hfirst := h.below List.mem_cons_self
  obtain ⟨before, child, after, hsplit, hwhy⟩ := exists_of_checkChildren_error hcheck
  have hlisted : child ∈ s.children first := by simp [hsplit]
  rcases hwhy with ⟨hmissing, rfl⟩ | ⟨node, hnode, hparent, rfl⟩ | ⟨hparent, hmet, rfl⟩
  · exact ⟨hfirst, hlisted, hmissing⟩
  · refine ⟨hfirst, hlisted, ?_, ?_, hparent⟩
    · rw [hnode]
      exact Option.some_ne_none node
    · rw [parent?, hnode]
      rfl
  · refine ⟨first, hfirst, hlisted, hparent, or_iff_not_imp_left.mpr fun hroot => ?_⟩
    -- met before this visit, its parent would be done, and it is being visited now
    have hbefore : child ∈ before := hmet.resolve_left fun hfresh =>
      (h.parent_done hfresh hroot hparent).1 List.mem_cons_self
    have hcount := List.count_pos_iff.mpr hbefore
    show 1 < (s.children first).count child
    rw [hsplit, List.count_append, List.count_cons_self]
    omega

end Explored

private theorem isAt_of_checkFrom {fresh pending : List NodeId} {malformation : Malformation}
    (h : s.Explored fresh pending) (hcheck : s.checkFrom fresh pending = .error malformation) :
    malformation.defect.IsAt s malformation.node := by
  fun_induction checkFrom s fresh pending with
  | case1 => cases hcheck
  | case2 fresh first pending malformation' hleaf =>
      cases hcheck
      exact isAt_of_leafDefect? (h.below List.mem_cons_self) hleaf
  | case3 fresh first pending hleaf malformation' hchildren =>
      cases hcheck
      exact h.isAt_of_checkChildren hchildren
  | case4 fresh first pending hleaf fresh' hchildren ih =>
      obtain ⟨rfl, hnodup, hall⟩ := (checkChildren_eq_ok_iff h.nodup_fresh).mp hchildren
      exact ih (h.step hnodup hall) hcheck

theorem isAt_of_validate {malformation : Malformation} (h : s.validate = .error malformation) :
    malformation.defect.IsAt s malformation.node := by
  unfold validate at h
  split at h
  · split at h
    · next hcheck =>
        cases h
        exact isAt_of_checkFrom s.explored_start hcheck
    · split at h
      · next hparent =>
          cases h
          obtain ⟨id, -, hid⟩ := List.exists_of_findSome?_eq_some hparent
          exact isAt_of_parentDefect? hid
      · cases h
  · next hroot =>
      cases h
      exact ⟨rfl, by simpa [Sheet.isRoot] using hroot⟩

/-! ## The verdict -/

/-- The check accepts exactly the sheets with the links of a tree. Of any other
it reports what is so. -/
theorem validate_decides (s : Sheet) :
    (s.validate = .ok () ↔ s.TreeLinked) ∧
      ∀ node defect, s.validate = .error ⟨node, defect⟩ → defect.IsAt s node :=
  ⟨validate_eq_ok_iff.trans treeLinked_iff_consistent.symm, fun _ _ h => isAt_of_validate h⟩

/-- The root lists `.a` twice, and two detached rules list each other. -/
def twiceListedSheet : Sheet where
  nodes := #[⟨.root, none, [1, 1]⟩, ⟨.rule ".a", some 0, []⟩, ⟨.rule ".b", some 3, [3]⟩,
    ⟨.rule ".c", some 2, [2]⟩]
  nonempty := by decide

/-- What is reported is the double entry. Without it the sheet is accepted. -/
theorem validate_decides_twiceListedSheet :
    twiceListedSheet.validate = .error ⟨1, .reachedTwice⟩ ∧
      Defect.reachedTwice.IsAt twiceListedSheet 1 ∧
      (twiceListedSheet.setChildren rootId [1]).validate = .ok () ∧
      (twiceListedSheet.setChildren rootId [1]).TreeLinked := by
  have htwice : twiceListedSheet.validate = .error ⟨1, .reachedTwice⟩ := by decide +kernel
  have honce : (twiceListedSheet.setChildren rootId [1]).validate = .ok () := by decide +kernel
  exact ⟨htwice, (validate_decides _).2 _ _ htwice, honce, (validate_decides _).1.mp honce⟩

end Sheet

end Unnest
