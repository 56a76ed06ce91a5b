import Mathlib.Data.List.Nodup
import Unnest.Proofs.Sheet.Edit
import Unnest.Sheet.Validate

/-!
# What the check accepts

A sheet is `Consistent` if its links agree wherever they can be reached from the
root, none of them leads back to the root, and each node is listed by the parent
that it names. `validate` accepts exactly these sheets.

The root of a consistent sheet may still name a parent, which is detached then.
A sheet without that is linked. In one with it no chain of parents ends at the
root, so that every node but the root counts as detached.
-/

namespace Unnest.Sheet

structure Consistent (s : Sheet) : Prop where
  content?_root : s.content? rootId = some .root
  agreesAt {id : NodeId} : s.Below rootId id → s.AgreesAt id
  root_not_listed {id : NodeId} : s.Below rootId id → rootId ∉ s.children id
  mem_children {id parent : NodeId} : s.parent? id = some parent → id ∈ s.children parent

/-! ## The steps of the check -/

theorem checkChildren_eq_ok_iff {s : Sheet} {lister : NodeId}
    {fresh children fresh' : List NodeId} (hfresh : fresh.Nodup) :
    s.checkChildren lister fresh children = .ok fresh' ↔
      fresh' = fresh.diff children ∧ children.Nodup ∧
        ∀ child ∈ children, child ∈ fresh ∧ s.parent? child = some lister := by
  induction children generalizing fresh with
  | nil => simp [checkChildren, eq_comm]
  | cons child children ih =>
      have hparent? : s.parent? child = (s.get? child).bind (·.parent) := rfl
      rw [checkChildren, List.diff_cons, List.nodup_cons, List.forall_mem_cons, hparent?]
      cases hnode : s.get? child with
      | none => simp
      | some node =>
          by_cases hparent : node.parent = some lister
          · by_cases hmem : child ∈ fresh
            · simp only [hparent, ne_eq, not_true_eq_false, if_false, hmem, if_true,
                ih (hfresh.erase child), hfresh.mem_erase_iff, Option.bind_some, true_and]
              constructor
              · rintro ⟨rfl, hnodup, hall⟩
                exact ⟨rfl, ⟨fun hagain => (hall child hagain).1.1 rfl, hnodup⟩,
                  fun other hother => ⟨(hall other hother).1.2, (hall other hother).2⟩⟩
              · rintro ⟨rfl, ⟨hchild, hnodup⟩, hall⟩
                refine ⟨rfl, hnodup, fun other hother => ⟨⟨?_, (hall other hother).1⟩,
                  (hall other hother).2⟩⟩
                rintro rfl
                exact hchild hother
            · simp [hparent, hmem]
          · simp [hparent]

theorem leafDefect?_eq_none_iff {s : Sheet} {id : NodeId} :
    s.leafDefect? id = none ↔
      ∀ content, s.content? id = some content → s.children id ≠ [] →
        content.isContainer = true := by
  rw [leafDefect?]
  cases s.content? id with
  | none => simp
  | some content => cases content.isContainer <;> simp [Decidable.or_iff_not_imp_right]

theorem parentDefect?_eq_none_iff {s : Sheet} {id : NodeId} :
    s.parentDefect? id = none ↔
      ∀ parent, s.parent? id = some parent → id ∈ s.children parent := by
  rw [parentDefect?]
  cases s.parent? id with
  | none => simp
  | some parent =>
      by_cases hmissing : s.get? parent = none
      · have hchildren : s.children parent = [] := by simp [children, hmissing]
        simp [hmissing, hchildren]
      · simp [hmissing]

/-! ## What is accepted is consistent -/

/-- Below the nodes that were checked links agree and lead to nodes that were
fresh. -/
theorem agreesAt_of_checkFrom {s : Sheet} {fresh pending : List NodeId} (hfresh : fresh.Nodup)
    (h : s.checkFrom fresh pending = .ok ()) {top id : NodeId} (htop : top ∈ pending)
    (hid : s.Below top id) : s.AgreesAt id ∧ s.children id ⊆ fresh := by
  fun_induction checkFrom s fresh pending generalizing top with
  | case1 => simp at htop
  | case2 => cases h
  | case3 => cases h
  | case4 fresh first pending hleaf fresh' hcheck ih =>
      obtain ⟨rfl, hnodup, hall⟩ := (checkChildren_eq_ok_iff hfresh).mp hcheck
      have hpending {top : NodeId} (htop : top ∈ (s.children first).reverse ++ pending)
          (hid : s.Below top id) : s.AgreesAt id ∧ s.children id ⊆ fresh := by
        obtain ⟨hagrees, hsubset⟩ := ih hfresh.diff h htop hid
        exact ⟨hagrees, fun child hchild => List.diff_subset _ _ (hsubset hchild)⟩
      rcases List.mem_cons.mp htop with rfl | htop
      · rcases hid.cases_top with rfl | ⟨child, hchild, hbelow⟩
        · exact ⟨⟨hnodup, fun hchild => (hall _ hchild).2,
            fun hcontent => leafDefect?_eq_none_iff.mp hleaf _ hcontent⟩,
            fun child hchild => (hall child hchild).1⟩
        · exact hpending (by simp [hchild]) hbelow
      · exact hpending (by simp [htop]) hid

theorem consistent_of_validate {s : Sheet} (h : s.validate = .ok ()) : s.Consistent := by
  unfold validate at h
  split at h
  · next hroot =>
      split at h
      · cases h
      · next hcheck =>
          split at h
          · cases h
          · next hparents =>
              have hfresh := s.nodup_ids.erase rootId
              have hbelow {id : NodeId} (hid : s.Below rootId id) :=
                agreesAt_of_checkFrom hfresh hcheck (List.mem_singleton.mpr rfl) hid
              refine ⟨by simpa [isRoot] using hroot, fun hid => (hbelow hid).1, ?_, ?_⟩
              · exact fun hid hlisted => s.nodup_ids.not_mem_erase ((hbelow hid).2 hlisted)
              · intro id parent hparent
                have hid : id ∈ s.ids := mem_ids.mpr (lt_size_of_parent? hparent)
                exact parentDefect?_eq_none_iff.mp
                  (List.findSome?_eq_none_iff.mp hparents id hid) parent hparent
  · cases h

/-! ## What is consistent is accepted -/

theorem below_setParent_iff {s : Sheet} {slot : NodeId} {parent? : Option NodeId}
    {top id : NodeId} : (s.setParent slot parent?).Below top id ↔ s.Below top id :=
  ⟨.of_children_eq fun id => children_setParent s slot id parent?,
    .of_children_eq fun id => (children_setParent s slot id parent?).symm⟩

section visit

variable {s : Sheet} {fresh pending : List NodeId} {first : NodeId}

theorem nodup_pending_step (hmet : ∀ {id}, id ∈ first :: pending → id ∉ fresh)
    (hpending : (first :: pending).Nodup) (hnodup : (s.children first).Nodup)
    (hchildren : ∀ child ∈ s.children first, child ∈ fresh) :
    ((s.children first).reverse ++ pending).Nodup := by
  refine List.nodup_append.mpr ⟨List.nodup_reverse.mpr hnodup, (List.nodup_cons.mp hpending).2, ?_⟩
  rintro child hchild _ hmem rfl
  exact hmet (List.mem_cons_of_mem _ hmem) (hchildren child (List.mem_reverse.mp hchild))

theorem not_fresh_step (hfresh : fresh.Nodup)
    (hmet : ∀ {id}, id ∈ first :: pending → id ∉ fresh) {id : NodeId}
    (hid : id ∈ (s.children first).reverse ++ pending) :
    id ∉ fresh.diff (s.children first) := by
  rw [hfresh.mem_sdiff_iff]
  rintro ⟨hmem, hlisted⟩
  rcases List.mem_append.mp hid with hid | hid
  · exact hlisted (List.mem_reverse.mp hid)
  · exact hmet (List.mem_cons_of_mem _ hid) hmem

theorem below_step (hbelow : ∀ {id}, id ∈ first :: pending → s.Below rootId id) {id : NodeId}
    (hid : id ∈ (s.children first).reverse ++ pending) : s.Below rootId id := by
  rcases List.mem_append.mp hid with hid | hid
  · exact (hbelow List.mem_cons_self).child (List.mem_reverse.mp hid)
  · exact hbelow (List.mem_cons_of_mem _ hid)

end visit

/-- Where the check stands: nothing pending is fresh, and what is listed by a
node that is yet to be visited is fresh. -/
structure Unvisited (s : Sheet) (fresh pending : List NodeId) : Prop where
  nodup_fresh : fresh.Nodup
  nodup_pending : pending.Nodup
  not_fresh {id : NodeId} : id ∈ pending → id ∉ fresh
  below {id : NodeId} : id ∈ pending → s.Below rootId id
  child_fresh {id child : NodeId} : id ∈ pending ∨ id ∈ fresh → s.Below rootId id →
    child ∈ s.children id → child ∈ fresh

namespace Consistent

variable {s : Sheet} (h : s.Consistent)
include h

theorem ne_root_of_mem_children {id child : NodeId} (hid : s.Below rootId id)
    (hchild : child ∈ s.children id) : child ≠ rootId := by
  rintro rfl
  exact h.root_not_listed hid hchild

theorem linked_setParent : (s.setParent rootId none).Linked := by
  have hroot : rootId < s.size := s.size_pos
  refine ⟨by rw [content?_setParent, h.content?_root], by simp [parent?_setParent, hroot], ?_, ?_⟩
  · intro id hid
    have hagrees := h.agreesAt (below_setParent_iff.mp hid)
    refine ⟨by rw [children_setParent]; exact hagrees.nodup, ?_, ?_⟩
    · intro child hchild
      rw [children_setParent] at hchild
      have hne := h.ne_root_of_mem_children (below_setParent_iff.mp hid) hchild
      rw [parent?_setParent, if_neg fun hslot => hne hslot.1, hagrees.parent?_child hchild]
    · intro content hcontent hne
      rw [content?_setParent] at hcontent
      rw [children_setParent] at hne
      exact hagrees.isContainer hcontent hne
  · intro id parent hparent
    rw [parent?_setParent] at hparent
    split at hparent
    · cases hparent
    · rw [children_setParent]
      exact h.mem_children hparent

theorem not_mem_children_self {id : NodeId} (hid : s.Below rootId id) : id ∉ s.children id := by
  have := h.linked_setParent.not_mem_children_self (below_setParent_iff.mpr hid)
  rwa [children_setParent] at this

theorem unvisited_start : s.Unvisited (s.ids.erase rootId) [rootId] where
  nodup_fresh := s.nodup_ids.erase rootId
  nodup_pending := List.nodup_singleton rootId
  not_fresh := by
    intro id hid
    rw [List.mem_singleton.mp hid]
    exact s.nodup_ids.not_mem_erase
  below := by
    intro id hid
    rw [List.mem_singleton.mp hid]
    exact .refl
  child_fresh := by
    intro id child _ hid hchild
    have hslot := lt_size_of_parent? ((h.agreesAt hid).parent?_child hchild)
    exact (List.mem_erase_of_ne (h.ne_root_of_mem_children hid hchild)).mpr (mem_ids.mpr hslot)

private theorem unvisited_step {fresh pending : List NodeId} {first : NodeId}
    (hu : s.Unvisited fresh (first :: pending)) :
    s.Unvisited (fresh.diff (s.children first)) ((s.children first).reverse ++ pending) := by
  have hfirst := hu.below List.mem_cons_self
  have hagrees := h.agreesAt hfirst
  have hchildren {child : NodeId} (hchild : child ∈ s.children first) : child ∈ fresh :=
    hu.child_fresh (.inl List.mem_cons_self) hfirst hchild
  have hleft := (List.nodup_cons.mp hu.nodup_pending).1
  refine ⟨hu.nodup_fresh.diff, ?_, ?_, ?_, ?_⟩
  · exact nodup_pending_step hu.not_fresh hu.nodup_pending hagrees.nodup fun _ => hchildren
  · exact fun hid => not_fresh_step hu.nodup_fresh hu.not_fresh hid
  · exact fun hid => below_step hu.below hid
  · intro id child hid hbelow hchild
    -- The node is not the one that was visited, so it has other children.
    have hid : id ≠ first ∧ (id ∈ first :: pending ∨ id ∈ fresh) := by
      simp only [List.mem_append, List.mem_reverse, hu.nodup_fresh.mem_sdiff_iff] at hid
      rcases hid with (hid | hid) | ⟨hid, -⟩
      · exact ⟨fun heq => h.not_mem_children_self hfirst (heq ▸ hid), .inr (hchildren hid)⟩
      · exact ⟨fun heq => hleft (heq ▸ hid), .inl (List.mem_cons_of_mem _ hid)⟩
      · exact ⟨fun heq => hu.not_fresh List.mem_cons_self (heq ▸ hid), .inr hid⟩
    refine hu.nodup_fresh.mem_sdiff_iff.mpr ⟨hu.child_fresh hid.2 hbelow hchild, ?_⟩
    intro hlisted
    have hparent := (h.agreesAt hbelow).parent?_child hchild
    rw [hagrees.parent?_child hlisted] at hparent
    exact hid.1 (Option.some.inj hparent).symm

private theorem checkFrom_eq_ok {fresh pending : List NodeId} (hu : s.Unvisited fresh pending) :
    s.checkFrom fresh pending = .ok () := by
  fun_induction checkFrom s fresh pending with
  | case1 => rfl
  | case2 fresh first pending malformation hleaf =>
      have hagrees := h.agreesAt (hu.below List.mem_cons_self)
      rw [leafDefect?_eq_none_iff.mpr fun _ hcontent => hagrees.isContainer hcontent] at hleaf
      cases hleaf
  | case3 fresh first pending hleaf malformation hcheck =>
      have hfirst := hu.below List.mem_cons_self
      have hagrees := h.agreesAt hfirst
      rw [(checkChildren_eq_ok_iff hu.nodup_fresh).mpr ⟨rfl, hagrees.nodup, fun child hchild =>
        ⟨hu.child_fresh (.inl List.mem_cons_self) hfirst hchild,
          hagrees.parent?_child hchild⟩⟩] at hcheck
      cases hcheck
  | case4 fresh first pending hleaf fresh' hcheck ih =>
      obtain ⟨rfl, -, -⟩ := (checkChildren_eq_ok_iff hu.nodup_fresh).mp hcheck
      exact ih (h.unvisited_step hu)

theorem validate_eq_ok : s.validate = .ok () := by
  have hroot : s.isRoot rootId = true := by simp [isRoot, h.content?_root]
  have hparents : s.ids.findSome? s.parentDefect? = none :=
    List.findSome?_eq_none_iff.mpr fun id _ =>
      parentDefect?_eq_none_iff.mpr fun parent hparent => h.mem_children hparent
  simp only [validate, hroot, if_true, h.checkFrom_eq_ok h.unvisited_start, hparents]

end Consistent

theorem validate_eq_ok_iff {s : Sheet} : s.validate = .ok () ↔ s.Consistent :=
  ⟨consistent_of_validate, Consistent.validate_eq_ok⟩

/-! ## The parent of the root -/

theorem Linked.consistent {s : Sheet} (h : s.Linked) : s.Consistent where
  content?_root := h.content?_root
  agreesAt := h.agreesAt
  root_not_listed := by
    intro id hid hlisted
    have hparent := (h.agreesAt hid).parent?_child hlisted
    rw [h.parent?_root] at hparent
    cases hparent
  mem_children := h.mem_children

theorem linked_of_validate {s : Sheet} (h : s.validate = .ok ())
    (hroot : s.parent? rootId = none) : s.Linked :=
  have h := consistent_of_validate h
  ⟨h.content?_root, hroot, h.agreesAt, h.mem_children⟩

/-- The parent links of a chain that ends at the root lead through the root to
the parent that it names. -/
theorem ancestorsWithin_eq_append {s : Sheet} {id : NodeId} {chain : List NodeId}
    (hchain : (s.setParent rootId none).Chain id chain)
    (hlast : (id :: chain).getLast? = some rootId) {steps : Nat} (hsteps : chain.length ≤ steps) :
    s.ancestorsWithin steps id = chain ++ s.ancestorsWithin (steps - chain.length) rootId := by
  induction hchain generalizing steps with
  | nil =>
      obtain rfl : _ = rootId := by simpa using hlast
      simp
  | @cons id parent rest hparent hrest ih =>
      rw [parent?_setParent] at hparent
      split at hparent
      · cases hparent
      · cases steps with
        | zero => simp at hsteps
        | succ steps =>
            rw [List.length_cons, Nat.add_sub_add_right, ancestorsWithin, hparent]
            rw [List.getLast?_cons_cons] at hlast
            exact congrArg (parent :: ·) (ih hlast (Nat.le_of_succ_le_succ hsteps))

namespace Consistent

variable {s : Sheet} (h : s.Consistent)
include h

private theorem exists_parent?_of_getLast? {id : NodeId} {steps : Nat}
    (hlast : (s.ancestorsWithin steps id).getLast? = some rootId) :
    ∃ parent, s.parent? id = some parent ∧ s.Below rootId parent := by
  induction steps generalizing id with
  | zero => simp [ancestorsWithin] at hlast
  | succ steps ih =>
      cases hparent : s.parent? id with
      | none => simp [ancestorsWithin, hparent] at hlast
      | some parent =>
          refine ⟨parent, rfl, ?_⟩
          rw [ancestorsWithin, hparent] at hlast
          simp only [List.getLast?_cons, Option.some.injEq] at hlast
          cases hrest : (s.ancestorsWithin steps parent).getLast? with
          | none =>
              rw [hrest] at hlast
              obtain rfl : parent = rootId := hlast
              exact .refl
          | some last =>
              rw [hrest] at hlast
              obtain rfl : last = rootId := hlast
              obtain ⟨outer, houter, hbelow⟩ := ih hrest
              exact .child hbelow (h.mem_children houter)

/-- With a parent of its own the root is no end of a chain: all nodes below it
count as detached. -/
theorem isAttached_eq_false {outer : NodeId} (hroot : s.parent? rootId = some outer) {id : NodeId}
    (hne : id ≠ rootId) : s.isAttached id = false := by
  rw [Bool.eq_false_iff]
  intro hattached
  simp only [isAttached, Bool.or_eq_true, beq_iff_eq, hne, false_or] at hattached
  obtain ⟨parent, hparent, hbelow⟩ := h.exists_parent?_of_getLast? hattached
  have hid : s.Below rootId id := .child hbelow (h.mem_children hparent)
  have hlinked := h.linked_setParent
  obtain ⟨hchain, hlength⟩ := hlinked.chain_ancestors (below_setParent_iff.mpr hid)
  have hlast := hlinked.getLast?_chain (below_setParent_iff.mpr hid) hne hchain
  rw [size_setParent] at hlength
  rw [ancestors, ancestorsWithin_eq_append hchain (by simp [List.getLast?_cons, hlast])
    (Nat.le_of_lt hlength)] at hattached
  -- At least one step is left at the root, and the last step leads back to it.
  obtain ⟨left, hleft⟩ := Nat.exists_eq_add_of_lt hlength
  have hrest : (s.ancestorsWithin (left + 1) rootId).getLast? = some rootId := by
    rw [List.getLast?_append, hleft, Nat.add_assoc, Nat.add_sub_cancel_left] at hattached
    simpa [ancestorsWithin, hroot] using hattached
  obtain ⟨parent, hparent, hbelow⟩ := h.exists_parent?_of_getLast? hrest
  exact h.root_not_listed hbelow (h.mem_children hparent)

end Consistent

end Unnest.Sheet
