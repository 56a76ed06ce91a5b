import Unnest.Proofs.Sheet.Linked
import Unnest.Selector.Expand

/-!
# Selectors along the parents of a node

In a linked sheet the selectors around a node are read off its ancestors, up to
the first that is no rule, and the bound on their number is never met.
-/

namespace Unnest.Sheet

def ruleTexts (s : Sheet) : List NodeId → List String
  | [] => []
  | id :: outer =>
      match s.selector? id with
      | none => []
      | some selector => selector :: s.ruleTexts outer

theorem isRule_eq_isSome_selector? (s : Sheet) (id : NodeId) :
    s.isRule id = (s.selector? id).isSome := by
  unfold isRule selector?
  cases s.content? id with
  | none => rfl
  | some content => exact content.isRule_eq_isSome_selector?

theorem content?_of_selector? {s : Sheet} {id : NodeId} {selector : String}
    (h : s.selector? id = some selector) : s.content? id = some (.rule selector) := by
  obtain ⟨content, hcontent, hselector⟩ := Option.bind_eq_some_iff.mp h
  cases content with
  | rule text => rw [hcontent, Option.some.inj hselector]
  | _ => cases hselector

theorem expand_ruleTexts_cons (s : Sheet) (id : NodeId) (outer : List NodeId) :
    Selector.expand (s.ruleTexts (id :: outer)) =
      match s.selector? id with
      | none => []
      | some selector => Selector.within (Selector.expand (s.ruleTexts outer)) selector := by
  rw [ruleTexts]
  cases s.selector? id <;> rfl

theorem selectorChain_eq_ruleTexts {s : Sheet} {id : NodeId} {chain : List NodeId} {limit : Nat}
    (h : s.Chain id chain) (hlimit : chain.length < limit) :
    s.selectorChain limit id = some (s.ruleTexts (id :: chain)) := by
  induction h generalizing limit with
  | @nil id hnone =>
      cases limit with
      | zero => simp at hlimit
      | succ limit => cases hselector : s.selector? id <;> simp [selectorChain, ruleTexts, *]
  | @cons id parent rest hsome _ ih =>
      cases limit with
      | zero => simp at hlimit
      | succ limit =>
          have ih := ih (Nat.lt_of_succ_lt_succ hlimit)
          cases hselector : s.selector? id with
          | none => simp [selectorChain, ruleTexts, hselector]
          | some selector => simp only [selectorChain, ruleTexts, hselector, hsome, ih]; rfl

theorem Linked.expandedSelectors_eq {s : Sheet} (h : s.Linked) {id : NodeId}
    {chain : List NodeId} (hid : s.Below rootId id) (hchain : s.Chain id chain) :
    s.expandedSelectors id = .ok (Selector.expand (s.ruleTexts (id :: chain))) := by
  have hlt := (h.chain_ancestors hid).2
  rw [h.ancestors_eq hid hchain] at hlt
  simp only [expandedSelectors, selectorChain_eq_ruleTexts hchain hlt]

theorem exists_of_mem_ruleTexts {s : Sheet} {ids : List NodeId} {selector : String}
    (h : selector ∈ s.ruleTexts ids) : ∃ id ∈ ids, s.selector? id = some selector := by
  induction ids with
  | nil => simp [ruleTexts] at h
  | cons id ids ih =>
      rw [ruleTexts] at h
      cases hselector : s.selector? id with
      | none => simp [hselector] at h
      | some first =>
          simp only [hselector, List.mem_cons] at h
          rcases h with rfl | h
          · exact ⟨id, by simp, hselector⟩
          · obtain ⟨other, hother, heq⟩ := ih h
            exact ⟨other, by simp [hother], heq⟩

theorem expandedSelectors_of_selector?_eq_none {s : Sheet} {id : NodeId}
    (h : s.selector? id = none) : s.expandedSelectors id = .ok [] := by
  have hchain : s.selectorChain s.size id = some [] := by
    rw [selectorChain, h]
  rw [expandedSelectors, hchain]
  rfl

/-- Directly under the root the text of a rule is all there is to expand. -/
theorem Linked.expandedSelectors_of_parent?_root {s : Sheet} (h : s.Linked) {id : NodeId}
    {selector : String} (hselector : s.selector? id = some selector)
    (hparent : s.parent? id = some rootId) :
    s.expandedSelectors id = .ok (Selector.items selector) := by
  have hid := h.below_of_parent? hparent .refl
  rw [h.expandedSelectors_eq hid (.cons hparent (.nil h.parent?_root))]
  have hroot : s.selector? rootId = none := by
    rw [selector?, h.content?_root]
    rfl
  simp [ruleTexts, hselector, hroot, Selector.expand, Selector.within]

end Unnest.Sheet
