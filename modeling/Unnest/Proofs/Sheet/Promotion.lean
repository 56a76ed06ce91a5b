import Unnest.Proofs.Sheet.Edit

/-!
# Replacing a rule by a copy at the root

Three edits put a copy of an attached rule at the end of the root and take the
rule itself away. In a linked sheet none of them is refused, and together they
do what a `Promotion` says.
-/

namespace Unnest.Sheet

/-- `t` is `s` with a copy of `rule`, in the next slot, in place of it. -/
structure Promotion (s : Sheet) (rule : NodeId) (selector : String) (t : Sheet) : Prop where
  size : t.size = s.size + 1
  content? (id : NodeId) :
    t.content? id = if id = s.size then some (.rule selector) else s.content? id
  parent? (id : NodeId) :
    t.parent? id =
      if id = rule then none
      else if id = s.size then some rootId
      else if s.parent? id = some rule then some s.size
      else s.parent? id
  children (id : NodeId) :
    t.children id =
      if id = s.size then s.children rule
      else if id = rule then []
      else (if s.parent? rule = some id then (s.children id).filter (· != rule)
        else s.children id) ++ if id = rootId then [s.size] else []

variable {s s₁ s₂ t : Sheet} {rule : NodeId} {selector : String}

private theorem parent?_copy_move (hs : s.Linked) (hid : s.Below rootId rule)
    (h₁ : s.copyRule rule selector = .ok (s.size, s₁)) (h₂ : s₁.move rootId s.size = .ok s₂)
    (id : NodeId) :
    s₂.parent? id =
      if id = s.size then some rootId
      else if s.parent? id = some rule then some s.size
      else s.parent? id := by
  rw [parent?_move h₂, parent?_copyRule h₁]
  by_cases hnew : id = s.size
  · simp [hnew]
  · have hiff : (id ∈ s.children rule ∧ id < s.size) ↔ s.parent? id = some rule := by
      rw [hs.mem_children_iff hid]
      exact ⟨And.left, fun hparent => ⟨hparent, lt_size_of_parent? hparent⟩⟩
    simp only [if_neg hnew, if_congr hiff rfl rfl]

private theorem promotion_of_edits (hs : s.Linked) (hid : s.Below rootId rule)
    (hroot : rule ≠ rootId) (h₁ : s.copyRule rule selector = .ok (s.size, s₁))
    (h₂ : s₁.move rootId s.size = .ok s₂) (h₃ : s₂.detach rule = .ok t) :
    Promotion s rule selector t := by
  have hlt := hs.lt_size hid
  have hne : rule ≠ s.size := Nat.ne_of_lt hlt
  have hself : s.parent? rule ≠ some rule := fun hparent =>
    hs.not_mem_children_self hid (hs.mem_children hparent)
  have hparent := parent?_copy_move hs hid h₁ h₂
  have hcopy : s₁.parent? s.size = none := by
    rw [parent?_copyRule h₁, if_pos rfl]
  constructor
  · rw [size_detach h₃, size_move h₂, (size_copyRule h₁).2]
  · intro id
    rw [content?_detach h₃, content?_move h₂, content?_copyRule h₁]
    by_cases hroot : id = rootId
    · simp [hroot, hs.content?_root, rootId_ne_size, Content.withBlock]
    · simp [hroot]
  · intro id
    rw [parent?_detach h₃, hparent]
  · intro id
    have hrule : s₂.parent? rule = s.parent? rule := by
      rw [hparent, if_neg hne, if_neg hself]
    rw [children_detach h₃, hrule, children_move h₂, hcopy, children_copyRule h₁]
    by_cases hnew : id = s.size
    · subst hnew
      have hlisted : s.parent? rule ≠ some s.size := fun hparent =>
        Nat.lt_irrefl _ (lt_size_of_mem_children (hs.mem_children hparent))
      simp [hlisted, (rootId_ne_size s).symm]
    · by_cases hrule : id = rule
      · subst hrule
        simp [hself, hne, hroot]
      · by_cases hlisted : s.parent? rule = some id
        · by_cases hid : id = rootId
          · subst hid
            simp [hlisted, rootId_ne_size, hrule, hne.symm]
          · simp [hlisted, hnew, hrule, hid]
        · simp [hlisted, hnew, hrule]

/-- The edits that promote an attached rule all go through. -/
theorem Linked.exists_promotion (hs : s.Linked) (hid : s.Below rootId rule)
    (hrule : s.isRule rule = true) (selector : String) :
    ∃ s₁ s₂ t, s.copyRule rule selector = .ok (s.size, s₁) ∧
      s₁.move rootId s.size = .ok s₂ ∧ s₂.detach rule = .ok t ∧
      Promotion s rule selector t := by
  have hne := hs.ne_root_of_isRule hrule
  obtain ⟨s₁, h₁⟩ := exists_copyRule hrule selector
  have hcontent : s₁.content? rootId = some .root := by
    rw [content?_copyRule h₁, if_neg (rootId_ne_size s), hs.content?_root]
  have hparent : s₁.parent? rootId = none := by
    have hmem : rootId ∉ s.children rule := by
      rw [hs.mem_children_iff hid, hs.parent?_root]
      simp
    rw [parent?_copyRule h₁, if_neg (rootId_ne_size s), if_neg (by simp [hmem]),
      hs.parent?_root]
  have hancestors : s₁.ancestors rootId = [] :=
    (Chain.nil hparent).ancestorsWithin_eq (Nat.zero_le _)
  have hcopy : s.size < s₁.size := by
    rw [(size_copyRule h₁).2]
    exact Nat.lt_succ_self _
  have hfresh := (rootId_ne_size s).symm
  obtain ⟨s₂, h₂⟩ := exists_move hcontent rfl hcopy hfresh hfresh (by simp [hancestors])
  have hslot : rule < s₂.size := by
    rw [size_move h₂, (size_copyRule h₁).2]
    exact Nat.lt_succ_of_lt (hs.lt_size hid)
  obtain ⟨t, h₃⟩ := exists_detach hslot hne
  exact ⟨s₁, s₂, t, h₁, h₂, h₃, promotion_of_edits hs hid hne h₁ h₂ h₃⟩

end Unnest.Sheet
