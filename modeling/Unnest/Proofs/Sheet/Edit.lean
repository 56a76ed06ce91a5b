import Unnest.Proofs.Sheet.Linked
import Unnest.Sheet.Edit

/-!
# What an edit does to content, parents and children

Each step of an edit, and then each checked edit that succeeds, is described by
the content, the parent and the children that every node has behind it.
-/

namespace Unnest.Sheet

theorem lt_size_iff_isSome {s : Sheet} {id : NodeId} : id < s.size ↔ (s.get? id).isSome = true := by
  rw [Option.isSome_iff_ne_none, ne_eq, get?_eq_none_iff, Nat.not_le]

/-! ## Steps -/

theorem parent?_setParent (s : Sheet) (id other : NodeId) (parent : Option NodeId) :
    (s.setParent id parent).parent? other =
      if other = id ∧ other < s.size then parent else s.parent? other := by
  simp only [parent?, setParent, get?_modify, lt_size_iff_isSome]
  cases s.get? other <;> by_cases hid : other = id <;> simp [hid]

theorem children_setChildren (s : Sheet) (id other : NodeId) (children : List NodeId) :
    (s.setChildren id children).children other =
      if other = id ∧ other < s.size then children else s.children other := by
  simp only [Sheet.children, setChildren, get?_modify, lt_size_iff_isSome]
  cases s.get? other <;> by_cases hid : other = id <;> simp [hid]

theorem content?_enlist (s : Sheet) (parent child other : NodeId) :
    (s.enlist parent child).content? other =
      if other = parent then (s.content? other).map Content.withBlock else s.content? other := by
  simp only [content?, enlist, get?_modify]
  cases s.get? other <;> by_cases hid : other = parent <;> simp [hid]

theorem parent?_enlist (s : Sheet) (parent child other : NodeId) :
    (s.enlist parent child).parent? other = s.parent? other := by
  simp only [parent?, enlist, get?_modify]
  cases s.get? other <;> by_cases hid : other = parent <;> simp [hid]

theorem children_enlist (s : Sheet) (parent child other : NodeId) :
    (s.enlist parent child).children other =
      if other = parent ∧ other < s.size then s.children other ++ [child]
      else s.children other := by
  simp only [Sheet.children, enlist, get?_modify, lt_size_iff_isSome]
  cases s.get? other <;> by_cases hid : other = parent <;> simp [hid]

theorem content?_unlist (s : Sheet) (parent child other : NodeId) :
    (s.unlist parent child).content? other = s.content? other := by
  simp only [content?, unlist, get?_modify]
  cases s.get? other <;> by_cases hid : other = parent <;> simp [hid]

theorem parent?_unlist (s : Sheet) (parent child other : NodeId) :
    (s.unlist parent child).parent? other = s.parent? other := by
  simp only [parent?, unlist, get?_modify]
  cases s.get? other <;> by_cases hid : other = parent <;> simp [hid]

theorem children_unlist (s : Sheet) (parent child other : NodeId) :
    (s.unlist parent child).children other =
      if other = parent then (s.children other).filter (· != child) else s.children other := by
  simp only [Sheet.children, unlist, get?_modify]
  cases s.get? other <;> by_cases hid : other = parent <;> simp [hid]

theorem content?_push (s : Sheet) (node : Node) (id : NodeId) :
    (s.push node).content? id = if id = s.size then some node.content else s.content? id := by
  simp only [content?, get?_push]
  split <;> rfl

theorem parent?_push (s : Sheet) (node : Node) (id : NodeId) :
    (s.push node).parent? id = if id = s.size then node.parent else s.parent? id := by
  simp only [parent?, get?_push]
  split <;> rfl

theorem children_push (s : Sheet) (node : Node) (id : NodeId) :
    (s.push node).children id = if id = s.size then node.children else s.children id := by
  simp only [Sheet.children, get?_push]
  split <;> rfl

theorem content?_adoptAll (s : Sheet) (parent : NodeId) (children : List NodeId) (id : NodeId) :
    (s.adoptAll parent children).content? id = s.content? id := by
  induction children generalizing s with
  | nil => rfl
  | cons child children ih =>
      have := ih (s.setParent child (some parent))
      rw [content?_setParent] at this
      exact this

theorem children_adoptAll (s : Sheet) (parent : NodeId) (children : List NodeId) (id : NodeId) :
    (s.adoptAll parent children).children id = s.children id := by
  induction children generalizing s with
  | nil => rfl
  | cons child children ih =>
      have := ih (s.setParent child (some parent))
      rw [children_setParent] at this
      exact this

theorem parent?_adoptAll (s : Sheet) (parent : NodeId) (children : List NodeId) (id : NodeId) :
    (s.adoptAll parent children).parent? id =
      if id ∈ children ∧ id < s.size then some parent else s.parent? id := by
  induction children generalizing s with
  | nil => simp [adoptAll]
  | cons child children ih =>
      have := ih (s.setParent child (some parent))
      rw [parent?_setParent, size_setParent] at this
      refine Eq.trans this ?_
      by_cases hid : id = child
      · subst hid
        by_cases hslot : id < s.size <;> simp only [hslot, List.mem_cons_self] <;> simp
      · simp [hid]

theorem content?_unlink (s : Sheet) (id other : NodeId) :
    (s.unlink id).content? other = s.content? other := by
  unfold unlink
  split
  · rfl
  · rw [content?_unlist, content?_setParent]

theorem parent?_unlink (s : Sheet) (id other : NodeId) :
    (s.unlink id).parent? other = if other = id then none else s.parent? other := by
  unfold unlink
  split
  · next hparent =>
      split
      · next hid => rw [hid, hparent]
      · rfl
  · next parent hparent =>
      rw [parent?_unlist, parent?_setParent]
      by_cases hid : other = id
      · simp [hid, lt_size_of_parent? hparent]
      · simp [hid]

theorem children_unlink (s : Sheet) (id other : NodeId) :
    (s.unlink id).children other =
      if s.parent? id = some other then (s.children other).filter (· != id)
      else s.children other := by
  unfold unlink
  split
  · next hparent => simp [hparent]
  · next parent hparent =>
      rw [children_unlist, children_setParent, hparent]
      by_cases hother : other = parent
      · simp [hother]
      · simp [hother, Ne.symm hother]

/-! ## Linking -/

theorem content?_link (s : Sheet) (parent child id : NodeId) :
    ((s.setParent child (some parent)).enlist parent child).content? id =
      if id = parent then (s.content? id).map Content.withBlock else s.content? id := by
  rw [content?_enlist, content?_setParent]

theorem parent?_link {s : Sheet} {child : NodeId} (parent : NodeId) (hchild : child < s.size)
    (id : NodeId) :
    ((s.setParent child (some parent)).enlist parent child).parent? id =
      if id = child then some parent else s.parent? id := by
  rw [parent?_enlist, parent?_setParent]
  by_cases hid : id = child <;> simp [hid, hchild]

theorem children_link {s : Sheet} {parent : NodeId} (child : NodeId) (hparent : parent < s.size)
    (id : NodeId) :
    ((s.setParent child (some parent)).enlist parent child).children id =
      s.children id ++ if id = parent then [child] else [] := by
  rw [children_enlist, children_setParent, size_setParent]
  by_cases hid : id = parent <;> simp [hid, hparent]

/-! ## Checked edits -/

theorem requireContainer_eq_ok_iff {s : Sheet} {id : NodeId} :
    s.requireContainer id = .ok () ↔
      ∃ content, s.content? id = some content ∧ content.isContainer = true := by
  unfold requireContainer
  cases s.content? id with
  | none => simp
  | some content => cases hcontainer : content.isContainer <;> simp [hcontainer]

section append

variable {s t : Sheet} {parent id : NodeId} {content : Content}
variable (h : s.append parent content = .ok (id, t))
include h

theorem append_eq : t = s.grow parent content := by
  unfold append at h
  split at h
  · cases h
  · split at h
    · cases h
    · cases h
      rfl

theorem append_checks :
    content ≠ .root ∧ ∃ outer, s.content? parent = some outer ∧ outer.isContainer = true := by
  unfold append at h
  split at h
  · cases h
  · next hroot =>
      split at h
      · cases h
      · next hcontainer => exact ⟨hroot, requireContainer_eq_ok_iff.mp hcontainer⟩

end append

section copyRule

variable {s t : Sheet} {id copy : NodeId} {selector : String}

theorem exists_copyRule (hrule : s.isRule id = true) (selector : String) :
    ∃ t, s.copyRule id selector = .ok (s.size, t) := by
  obtain ⟨content, hcontent, hisRule⟩ := (Option.any_eq_true _ _).mp hrule
  exact ⟨_, by simp only [copyRule, hcontent, hisRule, if_true]; rfl⟩

variable (h : s.copyRule id selector = .ok (copy, t))
include h

theorem copyRule_eq :
    t = ((s.setChildren id []).adoptAll s.size (s.children id)).push
      ⟨.rule selector, none, s.children id⟩ := by
  unfold copyRule at h
  split at h
  · cases h
  · split at h
    · cases h
      rfl
    · cases h

theorem content?_copyRule (other : NodeId) :
    t.content? other =
      if other = s.size then some (.rule selector) else s.content? other := by
  rw [copyRule_eq h, content?_push, size_adoptAll, size_setChildren, content?_adoptAll,
    content?_setChildren]

theorem parent?_copyRule (other : NodeId) :
    t.parent? other =
      if other = s.size then none
      else if other ∈ s.children id ∧ other < s.size then some s.size
      else s.parent? other := by
  rw [copyRule_eq h, parent?_push, size_adoptAll, size_setChildren, parent?_adoptAll,
    size_setChildren, parent?_setChildren]

theorem children_copyRule (other : NodeId) :
    t.children other =
      if other = s.size then s.children id else if other = id then [] else s.children other := by
  rw [copyRule_eq h, children_push, size_adoptAll, size_setChildren, children_adoptAll,
    children_setChildren]
  by_cases hother : other < s.size
  · simp [hother]
  · simp [hother, children_eq_nil_of_size_le (Nat.le_of_not_lt hother)]

end copyRule

section move

variable {s t : Sheet} {parent child : NodeId}

theorem exists_move {content : Content} (hcontent : s.content? parent = some content)
    (hcontainer : content.isContainer = true) (hchild : child < s.size)
    (hroot : child ≠ rootId) (hne : child ≠ parent) (hcycle : child ∉ s.ancestors parent) :
    ∃ t, s.move parent child = .ok t := by
  have hslot : s.get? child ≠ none :=
    fun hnone => Nat.not_le.mpr hchild (get?_eq_none_iff.mp hnone)
  exact ⟨_, by simp only [move, requireContainer, hcontent, hcontainer, if_true, hslot, if_false,
    hroot, hne, hcycle, or_self]; rfl⟩

variable (h : s.move parent child = .ok t)
include h

theorem move_checks :
    (∃ content, s.content? parent = some content ∧ content.isContainer = true) ∧
      child < s.size ∧ child ≠ rootId ∧ child ∉ parent :: s.ancestors parent := by
  unfold move at h
  split at h
  · cases h
  · next hcontainer =>
      split at h
      · cases h
      · next hchild =>
          split at h
          · cases h
          · next hroot =>
              split at h
              · cases h
              · next hcycle =>
                  rw [← List.mem_cons] at hcycle
                  exact ⟨requireContainer_eq_ok_iff.mp hcontainer,
                    Nat.not_le.mp fun hle => hchild (get?_eq_none_iff.mpr hle), hroot, hcycle⟩

theorem move_eq :
    t = ((s.unlink child).setParent child (some parent)).enlist parent child ∧
      parent < s.size ∧ child < s.size := by
  obtain ⟨⟨content, hcontent, -⟩, hchild, -⟩ := move_checks h
  refine ⟨?_, lt_size_of_content? hcontent, hchild⟩
  unfold move at h
  repeat' split at h
  all_goals cases h
  rfl

theorem content?_move (other : NodeId) :
    t.content? other =
      if other = parent then (s.content? other).map Content.withBlock
      else s.content? other := by
  rw [(move_eq h).1, content?_link, content?_unlink]

theorem parent?_move (other : NodeId) :
    t.parent? other = if other = child then some parent else s.parent? other := by
  obtain ⟨rfl, -, hchild⟩ := move_eq h
  rw [parent?_link parent (by rwa [size_unlink]), parent?_unlink]
  by_cases hother : other = child <;> simp [hother]

theorem children_move (other : NodeId) :
    t.children other =
      (if s.parent? child = some other then (s.children other).filter (· != child)
        else s.children other) ++ if other = parent then [child] else [] := by
  obtain ⟨rfl, hparent, -⟩ := move_eq h
  rw [children_link child (by rwa [size_unlink]), children_unlink]

end move

section detach

variable {s t : Sheet} {id : NodeId}

theorem exists_detach (hslot : id < s.size) (hroot : id ≠ rootId) : ∃ t, s.detach id = .ok t := by
  have hget : s.get? id ≠ none :=
    fun hnone => Nat.not_le.mpr hslot (get?_eq_none_iff.mp hnone)
  exact ⟨_, by simp only [detach, hget, if_false, hroot]; rfl⟩

variable (h : s.detach id = .ok t)
include h

theorem detach_eq : t = s.unlink id := by
  unfold detach at h
  split at h
  · cases h
  · split at h
    · cases h
    · cases h
      rfl

theorem content?_detach (other : NodeId) : t.content? other = s.content? other := by
  rw [detach_eq h, content?_unlink]

theorem parent?_detach (other : NodeId) :
    t.parent? other = if other = id then none else s.parent? other := by
  rw [detach_eq h, parent?_unlink]

theorem children_detach (other : NodeId) :
    t.children other =
      if s.parent? id = some other then (s.children other).filter (· != id)
      else s.children other := by
  rw [detach_eq h, children_unlink]

end detach

end Unnest.Sheet
