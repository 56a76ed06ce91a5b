import Mathlib.Data.List.Nodup
import Unnest.Proofs.Sheet.Edit
import Unnest.Proofs.Sheet.WellFormed

/-!
# What checked edits keep

Each of them takes a well-formed sheet to a well-formed one, whatever ids it is
given: adding a node and moving one both come down to linking a node that has
no parent, outside of its own ancestors. A sheet only evolves by edits. Slots
stay, and so does what they hold, but that an at-rule may come to have a block.
-/

namespace Unnest

theorem Content.withBlock_eq_root_iff {content : Content} :
    content.withBlock = .root ↔ content = .root := by
  cases content <;> simp [withBlock]

namespace Sheet

/-- What `s` may have become by edits. -/
structure Evolves (s t : Sheet) : Prop where
  size_le : s.size ≤ t.size
  content? {id : NodeId} {content : Content} : s.content? id = some content →
    t.content? id = some content ∨
      ∃ name params, content = .atRule name params false ∧
        t.content? id = some (.atRule name params true)

theorem wellFormed_empty : empty.WellFormed := by
  have hholds : empty.Holds .nil := ⟨rfl, trivial⟩
  refine wellFormed_of_holds hholds trivial (List.nodup_singleton rootId) ?_
  intro id hid
  simpa [rootId, Forest.ids] using hid

namespace WellFormed

variable {s t : Sheet} (h : s.WellFormed)
include h

theorem lt_size_of_parent {id parent : NodeId} (hparent : s.parent? id = some parent) :
    parent < s.size :=
  lt_size_of_mem_children (h.mem_children_iff.mpr hparent)

theorem chain_lt_size {id : NodeId} {chain : List NodeId} (hchain : s.Chain id chain) :
    ∀ other ∈ chain, other < s.size := by
  induction hchain with
  | nil => simp
  | cons hparent _ ih => exact List.forall_mem_cons.mpr ⟨h.lt_size_of_parent hparent, ih⟩

/-- The bound on `ancestors` is met nowhere. -/
theorem chain_ancestors {id : NodeId} (hid : id < s.size) : s.Chain id (s.ancestors id) := by
  obtain ⟨chain, hchain⟩ := h.exists_chain id
  have hlt := hchain.length_lt_size (List.forall_mem_cons.mpr ⟨hid, h.chain_lt_size hchain⟩)
  rwa [ancestors, hchain.ancestorsWithin_eq (Nat.le_of_lt hlt)]

/-! ## Unlinking -/

theorem unlink (id : NodeId) : (s.unlink id).WellFormed where
  content?_root := by rw [content?_unlink, h.content?_root]
  eq_rootId := by
    intro other hother
    rw [content?_unlink] at hother
    exact h.eq_rootId hother
  parent?_root := by rw [parent?_unlink, h.parent?_root, ite_self]
  mem_children_iff := by
    intro other child
    rw [children_unlink, parent?_unlink]
    by_cases hchild : child = id
    · subst hchild
      by_cases hparent : s.parent? child = some other <;> simp [hparent, h.mem_children_iff]
    · by_cases hparent : s.parent? id = some other <;>
        simp [hparent, hchild, h.mem_children_iff]
  nodup_children := by
    intro other
    rw [children_unlink]
    split
    · exact (h.nodup_children other).filter _
    · exact h.nodup_children other
  isContainer := by
    intro other content hcontent hne
    rw [content?_unlink] at hcontent
    refine h.isContainer hcontent fun hnil => hne ?_
    rw [children_unlink, hnil, List.filter_nil, ite_self]
  exists_chain := by
    intro other
    obtain ⟨chain, hchain⟩ := h.exists_chain other
    refine hchain.exists_of_step fun up => ?_
    rw [parent?_unlink]
    split
    · next heq => exact .inr ⟨[], .nil (by rw [parent?_unlink, if_pos heq])⟩
    · exact .inl rfl
  hasBlock := by
    intro other name params block hcontent hne
    rw [content?_unlink] at hcontent
    refine h.hasBlock hcontent fun hnil => hne ?_
    rw [children_unlink, hnil, List.filter_nil, ite_self]

/-! ## New nodes -/

private theorem mem_children_push_iff {content : Content} {id child : NodeId} :
    child ∈ (s.push ⟨content, none, []⟩).children id ↔
      (s.push ⟨content, none, []⟩).parent? child = some id := by
  rw [children_push, parent?_push]
  by_cases hid : id = s.size
  · subst hid
    by_cases hchild : child = s.size
    · simp [hchild]
    · have hparent : s.parent? child ≠ some s.size := fun hparent =>
        Nat.lt_irrefl _ (h.lt_size_of_parent hparent)
      simp [hchild, hparent]
  · rw [if_neg hid, h.mem_children_iff]
    by_cases hchild : child = s.size
    · simp [hchild, parent?_eq_none_of_size_le (Nat.le_refl s.size)]
    · rw [if_neg hchild]

theorem push {content : Content} (hcontent : content ≠ .root) :
    (s.push ⟨content, none, []⟩).WellFormed where
  content?_root := by
    rw [content?_push, if_neg (rootId_ne_size s), h.content?_root]
  eq_rootId := by
    intro id hid
    rw [content?_push] at hid
    split at hid
    · exact absurd (Option.some.inj hid) hcontent
    · exact h.eq_rootId hid
  parent?_root := by
    rw [parent?_push, if_neg (rootId_ne_size s), h.parent?_root]
  mem_children_iff := h.mem_children_push_iff
  nodup_children := by
    intro id
    rw [children_push]
    split
    · exact List.nodup_nil
    · exact h.nodup_children id
  isContainer := by
    intro id other hother hne
    rw [content?_push] at hother
    rw [children_push] at hne
    split at hne
    · exact absurd rfl hne
    · next hid => exact h.isContainer (by rwa [if_neg hid] at hother) hne
  exists_chain := by
    intro id
    obtain ⟨chain, hchain⟩ := h.exists_chain id
    refine hchain.exists_of_step fun up => ?_
    by_cases hup : up = s.size
    · exact .inr ⟨[], .nil (by rw [parent?_push, if_pos hup])⟩
    · exact .inl (by rw [parent?_push, if_neg hup])
  hasBlock := by
    intro id name params block hother hne
    rw [content?_push] at hother
    rw [children_push] at hne
    split at hne
    · exact absurd rfl hne
    · next hid => exact h.hasBlock (by rwa [if_neg hid] at hother) hne

/-! ## Linking -/

section link

variable {parent child : NodeId} (hlone : s.parent? child = none) (hslot : child < s.size)
variable (hparent : parent < s.size)

include hlone hslot hparent in
private theorem mem_children_link_iff {id other : NodeId} :
    other ∈ ((s.setParent child (some parent)).enlist parent child).children id ↔
      ((s.setParent child (some parent)).enlist parent child).parent? other = some id := by
  rw [children_link child hparent, parent?_link parent hslot, List.mem_append,
    h.mem_children_iff]
  by_cases hother : other = child
  · subst hother
    by_cases hid : id = parent <;> simp [hid, hlone, Ne.symm]
  · by_cases hid : id = parent <;> simp [hid, hother]

include hlone hparent in
private theorem nodup_children_link (id : NodeId) :
    (((s.setParent child (some parent)).enlist parent child).children id).Nodup := by
  have hfresh : child ∉ s.children id := by
    rw [h.mem_children_iff, hlone]
    exact Option.some_ne_none id ∘ Eq.symm
  rw [children_link child hparent]
  split
  · rw [← List.concat_eq_append]
    exact (h.nodup_children id).concat hfresh
  · rw [List.append_nil]
    exact h.nodup_children id

include hslot in
private theorem exists_chain_link {chain : List NodeId} (hchain : s.Chain parent chain)
    (hoff : child ∉ parent :: chain) (id : NodeId) :
    ∃ chain, ((s.setParent child (some parent)).enlist parent child).Chain id chain := by
  have hup := parent?_link parent hslot
  generalize (s.setParent child (some parent)).enlist parent child = t at *
  have hparent : t.Chain parent chain := hchain.congr fun other hother => by
    rw [hup, if_neg fun heq : other = child => hoff (heq ▸ hother)]
  obtain ⟨chain', hchain'⟩ := h.exists_chain id
  refine hchain'.exists_of_step fun other => ?_
  by_cases hother : other = child
  · exact .inr ⟨parent :: chain, .cons (by rw [hup, if_pos hother]) hparent⟩
  · exact .inl (by rw [hup, if_neg hother])

omit h in
include hparent in
/-- A node with children has its content from before or is the new parent. -/
private theorem cases_of_children_link {id : NodeId}
    (hne : ((s.setParent child (some parent)).enlist parent child).children id ≠ []) :
    id = parent ∨ id ≠ parent ∧ s.children id ≠ [] := by
  by_cases hid : id = parent
  · exact .inl hid
  · rw [children_link child hparent, if_neg hid, List.append_nil] at hne
    exact .inr ⟨hid, hne⟩

/-- A node without a parent goes under one that may hold it. -/
theorem link {parent child : NodeId} {chain : List NodeId} (hlone : s.parent? child = none)
    (hslot : child < s.size) (hroot : child ≠ rootId)
    (hcontainer : ∃ content, s.content? parent = some content ∧ content.isContainer = true)
    (hchain : s.Chain parent chain) (hoff : child ∉ parent :: chain) :
    ((s.setParent child (some parent)).enlist parent child).WellFormed := by
  obtain ⟨outer, houter, hisContainer⟩ := hcontainer
  have hcontent := s.content?_link parent child
  have hparent := lt_size_of_content? houter
  exact {
    content?_root := by
      rw [hcontent, h.content?_root]
      split <;> rfl
    eq_rootId := by
      intro id hid
      rw [hcontent] at hid
      split at hid
      · obtain ⟨content, hold, heq⟩ := Option.map_eq_some_iff.mp hid
        exact h.eq_rootId (Content.withBlock_eq_root_iff.mp heq ▸ hold)
      · exact h.eq_rootId hid
    parent?_root := by rw [parent?_link parent hslot, if_neg hroot.symm, h.parent?_root]
    mem_children_iff := h.mem_children_link_iff hlone hslot hparent
    nodup_children := h.nodup_children_link hlone hparent
    isContainer := by
      intro id content hid hne
      rw [hcontent] at hid
      rcases cases_of_children_link hparent hne with rfl | ⟨hne, hnonempty⟩
      · rw [if_pos rfl, houter] at hid
        cases hid
        rw [Content.isContainer_withBlock, hisContainer]
      · rw [if_neg hne] at hid
        exact h.isContainer hid hnonempty
    exists_chain := h.exists_chain_link hslot hchain hoff
    hasBlock := by
      intro id name params block hid hne
      rw [hcontent] at hid
      rcases cases_of_children_link hparent hne with rfl | ⟨hne, hnonempty⟩
      · rw [if_pos rfl, houter] at hid
        cases outer <;> simp_all [Content.withBlock]
      · rw [if_neg hne] at hid
        exact h.hasBlock hid hnonempty }

end link

/-! ## Checked edits -/

theorem append {parent id : NodeId} {content : Content}
    (happend : s.append parent content = .ok (id, t)) : t.WellFormed := by
  obtain ⟨hcontent, outer, houter, hcontainer⟩ := append_checks happend
  have hne : parent ≠ s.size := Nat.ne_of_lt (lt_size_of_content? houter)
  have hgrow : s.grow parent content =
      ((s.push ⟨content, none, []⟩).setParent s.size (some parent)).enlist parent s.size := by
    refine congrArg (enlist · parent s.size) (ext_get? fun other => ?_)
    rw [setParent, get?_modify, get?_push, get?_push]
    by_cases hother : other = s.size <;> simp [hother]
  obtain ⟨chain, hchain⟩ := h.exists_chain parent
  rw [append_eq happend, hgrow]
  refine (h.push hcontent).link ?_ ?_ (rootId_ne_size s).symm ?_ (hchain.congr ?_) ?_
  · rw [parent?_push, if_pos rfl]
  · simp
  · exact ⟨outer, by rw [content?_push, if_neg hne, houter], hcontainer⟩
  · intro other hother
    rw [parent?_push, if_neg]
    rcases List.mem_cons.mp hother with rfl | hother
    · exact hne
    · exact Nat.ne_of_lt (h.chain_lt_size hchain other hother)
  · rw [List.mem_cons, not_or]
    exact ⟨hne.symm, fun hmem => Nat.lt_irrefl _ (h.chain_lt_size hchain _ hmem)⟩

theorem move {parent child : NodeId} (hmove : s.move parent child = .ok t) : t.WellFormed := by
  obtain ⟨⟨content, hcontent, hcontainer⟩, hslot, hroot, hoff⟩ := move_checks hmove
  have hchain := h.chain_ancestors (lt_size_of_content? hcontent)
  rw [(move_eq hmove).1]
  refine (h.unlink child).link ?_ (by simpa) hroot ?_ (hchain.congr ?_) hoff
  · rw [parent?_unlink, if_pos rfl]
  · exact ⟨content, by rw [content?_unlink, hcontent], hcontainer⟩
  · intro other hother
    rw [parent?_unlink, if_neg fun heq : other = child => hoff (heq ▸ hother)]

theorem detach {id : NodeId} (hdetach : s.detach id = .ok t) : t.WellFormed := by
  rw [detach_eq hdetach]
  exact h.unlink id

section copyRule

variable {id copy : NodeId} {selector : String} (hcopy : s.copyRule id selector = .ok (copy, t))
include hcopy

private theorem parent?_of_copyRule (other : NodeId) :
    t.parent? other = if s.parent? other = some id then some s.size else s.parent? other := by
  rw [parent?_copyRule hcopy]
  by_cases hother : other = s.size
  · simp [hother, parent?_eq_none_of_size_le]
  · by_cases hmem : s.parent? other = some id
    · simp [hother, h.mem_children_iff, hmem, lt_size_of_parent? hmem]
    · simp [hother, h.mem_children_iff, hmem]

private theorem mem_children_copyRule_iff {other child : NodeId} :
    child ∈ t.children other ↔ t.parent? child = some other := by
  rw [children_copyRule hcopy, h.parent?_of_copyRule hcopy]
  by_cases hother : other = s.size
  · subst hother
    have hfresh : s.parent? child ≠ some s.size := fun heq =>
      Nat.lt_irrefl _ (h.lt_size_of_parent heq)
    by_cases hchild : s.parent? child = some id <;>
      simp [hchild, hfresh, h.mem_children_iff]
  · rw [if_neg hother]
    by_cases hid : other = id
    · subst hid
      by_cases hchild : s.parent? child = some other <;> simp [hchild, Ne.symm hother]
    · rw [if_neg hid, h.mem_children_iff]
      by_cases hchild : s.parent? child = some id
      · simp [hchild, Ne.symm hother, Ne.symm hid]
      · simp [hchild]

private theorem nodup_children_copyRule (other : NodeId) : (t.children other).Nodup := by
  rw [children_copyRule hcopy]
  split
  · exact h.nodup_children id
  · split
    · exact List.nodup_nil
    · exact h.nodup_children other

private theorem exists_chain_copyRule (other : NodeId) : ∃ chain, t.Chain other chain := by
  have hparent := h.parent?_of_copyRule hcopy
  have hnew : t.Chain s.size [] := by
    refine .nil ?_
    simp [hparent, parent?_eq_none_of_size_le]
  obtain ⟨chain, hchain⟩ := h.exists_chain other
  refine hchain.exists_of_step fun up => ?_
  rw [hparent]
  split
  · next hup => exact .inr ⟨[s.size], .cons (by rw [hparent, if_pos hup]) hnew⟩
  · exact .inl rfl

omit h in
/-- Only the copy has children that it did not have before. -/
private theorem cases_of_children_copyRule {other : NodeId} (hne : t.children other ≠ []) :
    other = s.size ∨ other ≠ s.size ∧ s.children other ≠ [] := by
  by_cases hother : other = s.size
  · exact .inl hother
  · refine .inr ⟨hother, fun hnil => hne ?_⟩
    rw [children_copyRule hcopy, if_neg hother, hnil, ite_self]

theorem copyRule : t.WellFormed where
  content?_root := by rw [content?_copyRule hcopy, if_neg (rootId_ne_size s), h.content?_root]
  eq_rootId := by
    intro other hother
    rw [content?_copyRule hcopy] at hother
    split at hother
    · cases hother
    · exact h.eq_rootId hother
  parent?_root := by simp [h.parent?_of_copyRule hcopy, h.parent?_root]
  mem_children_iff := h.mem_children_copyRule_iff hcopy
  nodup_children := h.nodup_children_copyRule hcopy
  isContainer := by
    intro other content hother hne
    rw [content?_copyRule hcopy] at hother
    rcases cases_of_children_copyRule hcopy hne with rfl | ⟨hold, hne⟩
    · rw [if_pos rfl] at hother
      cases hother
      rfl
    · exact h.isContainer (by rwa [if_neg hold] at hother) hne
  exists_chain := h.exists_chain_copyRule hcopy
  hasBlock := by
    intro other name params block hother hne
    rw [content?_copyRule hcopy] at hother
    rcases cases_of_children_copyRule hcopy hne with rfl | ⟨hold, hne⟩
    · rw [if_pos rfl] at hother
      cases hother
    · exact h.hasBlock (by rwa [if_neg hold] at hother) hne

end copyRule

end WellFormed

/-! ## Evolution -/

namespace Evolves

variable {s t u : Sheet}

theorem refl (s : Sheet) : s.Evolves s :=
  ⟨Nat.le_refl _, .inl⟩

theorem trans (h : s.Evolves t) (h' : t.Evolves u) : s.Evolves u := by
  refine ⟨Nat.le_trans h.size_le h'.size_le, fun hs => ?_⟩
  rcases h.content? hs with ht | ⟨name, params, rfl, ht⟩
  · exact h'.content? ht
  · rcases h'.content? ht with hu | ⟨_, _, heq, -⟩
    · exact .inr ⟨name, params, rfl, hu⟩
    · cases heq

theorem of_withBlock (hsize : s.size ≤ t.size)
    (hcontent : ∀ id < s.size, t.content? id = s.content? id ∨
      t.content? id = (s.content? id).map Content.withBlock) : s.Evolves t := by
  refine ⟨hsize, fun {id content} hid => ?_⟩
  have hslot := hcontent id (lt_size_of_content? hid)
  rw [hid] at hslot
  rcases hslot with hsame | hblock
  · exact .inl hsame
  · cases content with
    | atRule name params block =>
        cases block with
        | true => exact .inl hblock
        | false => exact .inr ⟨name, params, rfl, hblock⟩
    | _ => exact .inl hblock

theorem append {parent id : NodeId} {content : Content}
    (h : s.append parent content = .ok (id, t)) : s.Evolves t := by
  refine of_withBlock (by simp [append_eq h]) fun other hother => ?_
  rw [append_eq h, grow, content?_enlist, content?_push, if_neg (Nat.ne_of_lt hother)]
  split
  · exact .inr rfl
  · exact .inl rfl

theorem move {parent child : NodeId} (h : s.move parent child = .ok t) : s.Evolves t := by
  refine of_withBlock (Nat.le_of_eq (size_move h).symm) fun other _ => ?_
  rw [content?_move h]
  split
  · exact .inr rfl
  · exact .inl rfl

theorem copyRule {id copy : NodeId} {selector : String}
    (h : s.copyRule id selector = .ok (copy, t)) : s.Evolves t := by
  refine of_withBlock (by simp [(size_copyRule h).2]) fun other hother => .inl ?_
  rw [content?_copyRule h, if_neg (Nat.ne_of_lt hother)]

theorem detach {id : NodeId} (h : s.detach id = .ok t) : s.Evolves t :=
  of_withBlock (Nat.le_of_eq (size_detach h).symm) fun other _ => .inl (content?_detach h other)

end Evolves

end Sheet

end Unnest
