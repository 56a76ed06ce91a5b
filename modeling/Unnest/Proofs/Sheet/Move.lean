import Unnest.Proofs.Flatten.History

/-!
# Moving a node

A move looks upwards for a cycle: it is refused if the node is among the
ancestors of its new parent. In a well-formed sheet this is so exactly if the
new parent is in the subtree of the node, attached or not. A move that is not
refused takes this subtree to its new place and leaves all else as it was.
-/

namespace Unnest

open RunM

namespace Sheet

/-! ## Up and down -/

namespace WellFormed

variable {s : Sheet} (h : s.WellFormed)
include h

theorem below_iff_mem_ancestors {top id : NodeId} (hid : id < s.size) :
    s.Below top id ↔ top ∈ id :: s.ancestors id := by
  have hchain := h.chain_ancestors hid
  exact ⟨fun hbelow => hchain.mem_of_below hbelow fun _ => h.mem_children_iff.mp,
    hchain.below_of_mem h.mem_children_iff.mpr⟩

theorem not_below_parent {id parent : NodeId} (hparent : s.parent? id = some parent) :
    ¬ s.Below id parent := by
  intro hbelow
  obtain ⟨chain, hchain⟩ := h.exists_chain parent
  have hid : s.Chain id (parent :: chain) := .cons hparent hchain
  exact hid.not_mem (hchain.mem_of_below hbelow fun _ => h.mem_children_iff.mp)

end WellFormed

/-! ## What a move does -/

/-- Whether `t` is `s` with `child`, and all that is below it, at the end of `parent`. -/
structure Moved (s : Sheet) (parent child : NodeId) (t : Sheet) : Prop where
  size : t.size = s.size
  parent?_child : t.parent? child = some parent
  parent?_of_ne {id : NodeId} : id ≠ child → t.parent? id = s.parent? id
  /-- Listed there before or not, the node is listed last. -/
  children_parent : t.children parent = (s.children parent).erase child ++ [child]
  children_former {former : NodeId} : s.parent? child = some former → former ≠ parent →
    t.children former = (s.children former).erase child
  children_of_ne {id : NodeId} : id ≠ parent → s.parent? child ≠ some id →
    t.children id = s.children id
  below_iff {id : NodeId} : t.Below child id ↔ s.Below child id
  subtree {id : NodeId} : s.Below child id →
    t.children id = s.children id ∧ t.content? id = s.content? id
  /-- An at-rule that comes to hold the node has a block. -/
  content?_parent : t.content? parent = (s.content? parent).map Content.withBlock
  content?_of_ne {id : NodeId} : id ≠ parent → t.content? id = s.content? id

/-- Beyond the ids only the ancestors of the new parent matter. -/
theorem move_eq_ite {s : Sheet} {parent child : NodeId} {content : Content}
    (hcontent : s.content? parent = some content) (hcontainer : content.isContainer = true)
    (hchild : child < s.size) (hroot : child ≠ rootId) :
    s.move parent child =
      if child ∈ parent :: s.ancestors parent then .error (.wouldCreateCycle child parent)
      else .ok (((s.unlink child).setParent child (some parent)).enlist parent child) := by
  have hslot : s.get? child ≠ none :=
    fun hnone => Nat.not_le.mpr hchild (get?_eq_none_iff.mp hnone)
  rw [move, requireContainer_eq_ok_iff.mpr ⟨content, hcontent, hcontainer⟩]
  simp only [if_neg hslot, if_neg hroot, List.mem_cons]

namespace WellFormed

variable {s t : Sheet} (h : s.WellFormed) {parent child : NodeId}
include h

theorem children_moved (hmove : s.move parent child = .ok t) (id : NodeId) :
    t.children id = (s.children id).erase child ++ if id = parent then [child] else [] := by
  rw [children_move hmove, (h.nodup_children id).erase_eq_filter]
  split
  · rfl
  · next hparent =>
      have hfresh : child ∉ s.children id := fun hmem => hparent (h.mem_children_iff.mp hmem)
      rw [← (h.nodup_children id).erase_eq_filter, List.erase_of_not_mem hfresh]

private theorem children_moved_of_below (hmove : s.move parent child = .ok t)
    (hcycle : ¬ s.Below child parent) {id : NodeId} (hid : s.Below child id) :
    t.children id = s.children id := by
  have hne : id ≠ parent := fun heq => hcycle (heq ▸ hid)
  have hfresh : child ∉ s.children id := by
    rw [h.mem_children_iff]
    exact fun hparent => h.not_below_parent hparent hid
  rw [h.children_moved hmove, List.erase_of_not_mem hfresh, if_neg hne, List.append_nil]

theorem moved (hmove : s.move parent child = .ok t) (hcycle : ¬ s.Below child parent) :
    s.Moved parent child t := by
  have hsubtree {id : NodeId} (hid : s.Below child id) : t.children id = s.children id :=
    h.children_moved_of_below hmove hcycle hid
  have hcontent {id : NodeId} (hne : id ≠ parent) : t.content? id = s.content? id := by
    rw [content?_move hmove, if_neg hne]
  exact {
    size := size_move hmove
    parent?_child := by rw [parent?_move hmove, if_pos rfl]
    parent?_of_ne := fun hne => by rw [parent?_move hmove, if_neg hne]
    children_parent := by rw [h.children_moved hmove, if_pos rfl]
    children_former := fun _ hne => by
      rw [h.children_moved hmove, if_neg hne, List.append_nil]
    children_of_ne := fun hne hparent => by
      rw [children_move hmove, if_neg hparent, if_neg hne, List.append_nil]
    below_iff := by
      intro id
      constructor
      · intro hid
        induction hid with
        | refl => exact .refl
        | child _ hmem ih => exact .child ih (hsubtree ih ▸ hmem)
      · intro hid
        induction hid with
        | refl => exact .refl
        | child hbelow hmem ih => exact .child ih (hsubtree hbelow ▸ hmem)
    subtree := fun hid => ⟨hsubtree hid, hcontent fun heq => hcycle (heq ▸ hid)⟩
    content?_parent := by rw [content?_move hmove, if_pos rfl]
    content?_of_ne := hcontent }

end WellFormed

end Sheet

/-! ## Moves in reached sheets -/

namespace Operation

variable {run : Run} {parent child : NodeId}

theorem exec_move {t : Sheet} (h : run.sheet.move parent child = .ok t) :
    exec (move parent child).run run = (.ok (), { run with sheet := t }) := by
  rw [Operation.run, exec_mapError, exec_edit, h]
  rfl

private theorem exec_move_error {error : EditError}
    (h : run.sheet.move parent child = .error error) :
    exec (move parent child).run run = (.error (.edit error), run) := by
  rw [Operation.run, exec_mapError, exec_edit, h]
  rfl

end Operation

/-- In whatever sheet operations lead to, a container can be given each other
node but the root, unless it is that node or below it. Then the run stays as it
is, and otherwise the subtree of the node is moved and nothing else. -/
theorem move_refused_iff_below {start : Sheet}
    (hstart : start = .empty ∨ ∃ source, parse source = .ok start) (log : List LogEntry)
    (operations : List Operation) {run : Run} (hrun : run = Run.after ⟨start, log⟩ operations)
    {parent child : NodeId} {content : Content}
    (hcontent : run.sheet.content? parent = some content)
    (hcontainer : content.isContainer = true) (hchild : child < run.sheet.size)
    (hroot : child ≠ rootId) :
    (run.sheet.move parent child = .error (.wouldCreateCycle child parent) ↔
      run.sheet.Below child parent) ∧
    (run.sheet.Below child parent →
      exec (Operation.move parent child).run run =
        (.error (.edit (.wouldCreateCycle child parent)), run)) ∧
    (¬ run.sheet.Below child parent →
      ∃ t, run.sheet.move parent child = .ok t ∧
        exec (Operation.move parent child).run run = (.ok (), { run with sheet := t }) ∧
        run.sheet.Moved parent child t) := by
  have hs : run.sheet.WellFormed := by
    rw [hrun]
    exact Run.wellFormed_after hstart log operations
  have hbelow : run.sheet.Below child parent ↔ child ∈ parent :: run.sheet.ancestors parent :=
    hs.below_iff_mem_ancestors (Sheet.lt_size_of_content? hcontent)
  have hmove := Sheet.move_eq_ite hcontent hcontainer hchild hroot
  refine ⟨?_, ?_, ?_⟩
  · rw [hmove, hbelow]
    split
    · next hmem => exact iff_of_true rfl hmem
    · next hmem => exact iff_of_false nofun hmem
  · intro hcycle
    rw [if_pos (hbelow.mp hcycle)] at hmove
    exact Operation.exec_move_error hmove
  · intro hcycle
    rw [if_neg fun hmem => hcycle (hbelow.mpr hmem)] at hmove
    exact ⟨_, hmove, Operation.exec_move hmove, hs.moved hmove hcycle⟩

/-- The rule `a` is attached and empty. The block of `@m`, with the rule `c` in it,
was taken out of `a`. -/
def detachedBlock : Run :=
  Run.after ⟨.empty, []⟩
    [.append rootId (.rule "a"), .append 1 (.atRule "m" "" false), .append 2 (.rule "c"),
      .detach 2]

/-- `@m` does not go into its own `c`, but back into `a`. -/
theorem move_refused_iff_below_detachedBlock :
    detachedBlock.sheet.content? 3 = some (.rule "c") ∧
      detachedBlock.sheet.content? 1 = some (.rule "a") ∧ 2 < detachedBlock.sheet.size ∧
      detachedBlock.sheet.Below 2 3 ∧
      exec (Operation.move 3 2).run detachedBlock =
        (.error (.edit (.wouldCreateCycle 2 3)), detachedBlock) ∧
      ¬ detachedBlock.sheet.Below 2 1 ∧
      ∃ t, detachedBlock.sheet.move 1 2 = .ok t ∧ detachedBlock.sheet.Moved 1 2 t := by
  have hc : detachedBlock.sheet.content? 3 = some (.rule "c") := by decide
  have ha : detachedBlock.sheet.content? 1 = some (.rule "a") := by decide
  have hm : 2 < detachedBlock.sheet.size := by decide
  have hbelow : detachedBlock.sheet.Below 2 3 := .child .refl (by decide)
  obtain ⟨-, hrefused, -⟩ :=
    move_refused_iff_below (.inl rfl) [] _ rfl hc rfl hm (by decide)
  obtain ⟨hcycle, -, hmoved⟩ :=
    move_refused_iff_below (.inl rfl) [] _ rfl ha rfl hm (by decide)
  have hapart : ¬ detachedBlock.sheet.Below 2 1 := mt hcycle.mpr (by decide)
  obtain ⟨t, hmove, -, ht⟩ := hmoved hapart
  exact ⟨hc, ha, hm, hbelow, hrefused hbelow, hapart, t, hmove, ht⟩

end Unnest
