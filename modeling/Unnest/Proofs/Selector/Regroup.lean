import Unnest.Proofs.Selector.Joined
import Unnest.Proofs.Selector.Recursion
import Unnest.Proofs.Sheet.Edit

/-!
# Expansion in parts

Resolving is associative as long as the selector in the middle has a first
character to look at, and items have one. So it does not matter in which groups
the levels of a nesting are expanded: cut anywhere, the inner rules are expanded
by themselves and their selectors are put inside those of the outer ones.
-/

namespace Unnest

namespace Selector

/-! ## Resolving -/

theorem resolve_reference (parent rest : String) :
    resolve parent ("&" ++ rest) = parent ++ rest := by
  simp [resolve, parentReference]

theorem resolve_descendant {child : String} (h : child.toList.head? ≠ some parentReference)
    (parent : String) : resolve parent child = parent ++ " " ++ child := by
  unfold resolve
  split
  · rfl
  · next c rest hchild =>
      rw [if_neg]
      rintro rfl
      simp [hchild] at h

/-- What a child puts behind its parent does not depend on the parent. -/
theorem resolve_append (front parent child : String) :
    resolve (front ++ parent) child = front ++ resolve parent child := by
  unfold resolve
  split
  · simp only [String.append_assoc]
  · split <;> simp only [String.append_assoc]

theorem resolve_resolve (outer : String) {middle : String} (h : middle ≠ "") (inner : String) :
    resolve (resolve outer middle) inner = resolve outer (resolve middle inner) := by
  by_cases hreference : middle.toList.head? = some parentReference
  · obtain ⟨rest, hrest⟩ := List.head?_eq_some_iff.mp hreference
    obtain rfl : middle = "&" ++ String.ofList rest := by
      rw [← String.toList_inj, hrest]
      simp [parentReference]
    calc resolve (resolve outer ("&" ++ String.ofList rest)) inner
      _ = resolve (outer ++ String.ofList rest) inner := by rw [resolve_reference]
      _ = outer ++ resolve (String.ofList rest) inner := resolve_append ..
      _ = resolve outer ("&" ++ resolve (String.ofList rest) inner) := by rw [resolve_reference]
      _ = resolve outer (resolve ("&" ++ String.ofList rest) inner) := by rw [resolve_append]
  · -- The selector in the middle keeps its first character in front of the inner one.
    have hfront : resolve middle inner = middle ++ resolve "" inner := by
      rw [← resolve_append, String.append_empty]
    have hhead : (resolve middle inner).toList.head? ≠ some parentReference := by
      rw [hfront, String.toList_append, List.head?_append_of_ne_nil _ (by simpa using h)]
      exact hreference
    calc resolve (resolve outer middle) inner
      _ = resolve (outer ++ " " ++ middle) inner := by rw [resolve_descendant hreference]
      _ = outer ++ " " ++ resolve middle inner := resolve_append ..
      _ = resolve outer (resolve middle inner) := by rw [resolve_descendant hhead]

theorem cross_cross (outer : List String) {middle : List String} (h : "" ∉ middle)
    (inner : List String) :
    cross (cross outer middle) inner = cross outer (cross middle inner) := by
  calc cross (cross outer middle) inner
    _ = outer.flatMap fun parent => (middle.map (resolve parent)).flatMap fun between =>
          inner.map (resolve between) := List.flatMap_assoc
    _ = outer.flatMap fun parent => middle.flatMap fun child =>
          inner.map (resolve (resolve parent child)) := by simp only [List.flatMap_map]
    _ = outer.flatMap fun parent => middle.flatMap fun child =>
          (inner.map (resolve child)).map (resolve parent) := by
      refine List.flatMap_congr fun parent _ => List.flatMap_congr fun child hchild => ?_
      have hchild : child ≠ "" := fun hempty => h (hempty ▸ hchild)
      rw [List.map_map]
      exact List.map_congr_left fun grandchild _ => resolve_resolve parent hchild grandchild
    _ = cross outer (cross middle inner) := by simp only [cross, List.map_flatMap]

/-! ## Rows of selectors -/

variable {inner outer : List String}

theorem within_of_ne_nil {parents : List String} (h : parents ≠ []) (selector : String) :
    within parents selector = cross parents (items selector) :=
  if_neg h

theorem cross_ne_nil {parents children : List String} (hparents : parents ≠ [])
    (hchildren : children ≠ []) : cross parents children ≠ [] := by
  rw [← List.length_pos_iff] at *
  rw [length_cross]
  exact Nat.mul_pos hparents hchildren

theorem empty_not_mem_expand (selectors : List String) : "" ∉ expand selectors := by
  intro hempty
  exact (proper_of_mem_expand hempty).ne_nil rfl

theorem expand_ne_nil {selectors : List String} (hne : selectors ≠ [])
    (hitems : ∀ selector ∈ selectors, items selector ≠ []) : expand selectors ≠ [] := by
  induction selectors with
  | nil => exact absurd rfl hne
  | cons selector outer ih =>
      obtain ⟨hselector, houter⟩ := List.forall_mem_cons.mp hitems
      rw [expand, within]
      split
      · exact hselector
      · next hexpand => exact cross_ne_nil hexpand hselector

/-- The inner part of a row is expanded by itself. -/
theorem expand_append (hinner : inner ≠ []) (hitems : ∀ selector ∈ inner, items selector ≠ [])
    (houter : expand outer ≠ []) :
    expand (inner ++ outer) = cross (expand outer) (expand inner) := by
  induction inner with
  | nil => exact absurd rfl hinner
  | cons selector inner ih =>
      obtain ⟨hselector, hrest⟩ := List.forall_mem_cons.mp hitems
      by_cases hnil : inner = []
      · rw [hnil, List.singleton_append, expand, within_of_ne_nil houter]
        rfl
      · have hexpand := expand_ne_nil hnil hrest
        calc expand (selector :: (inner ++ outer))
          _ = within (cross (expand outer) (expand inner)) selector := by
              rw [expand, ih hnil hrest]
          _ = cross (cross (expand outer) (expand inner)) (items selector) :=
              within_of_ne_nil (cross_ne_nil houter hexpand) selector
          _ = cross (expand outer) (cross (expand inner) (items selector)) :=
              cross_cross _ (empty_not_mem_expand inner) _
          _ = cross (expand outer) (expand (selector :: inner)) := by
              rw [expand, within_of_ne_nil hexpand]

end Selector

namespace Sheet

open Selector

variable {s : Sheet} {id : NodeId}

/-! ## Chains of rules -/

theorem ruleTexts_append {ids : List NodeId} (h : ∀ id ∈ ids, s.isRule id = true)
    (outer : List NodeId) : s.ruleTexts (ids ++ outer) = s.ruleTexts ids ++ s.ruleTexts outer := by
  induction ids with
  | nil => rfl
  | cons id ids ih =>
      obtain ⟨hid, hids⟩ := List.forall_mem_cons.mp h
      obtain ⟨selector, hselector⟩ := exists_selector? hid
      rw [List.cons_append, ruleTexts, hselector, ih hids, ruleTexts, hselector]
      rfl

theorem ruleTexts_ne_nil (h : s.isRule id = true) (ids : List NodeId) :
    s.ruleTexts (id :: ids) ≠ [] := by
  obtain ⟨selector, hselector⟩ := exists_selector? h
  rw [ruleTexts, hselector]
  exact List.cons_ne_nil _ _

theorem ruleTexts_congr {t : Sheet} (h : ∀ id, t.selector? id = s.selector? id)
    (ids : List NodeId) : t.ruleTexts ids = s.ruleTexts ids := by
  induction ids with
  | nil => rfl
  | cons id ids ih => rw [ruleTexts, h, ih, ruleTexts]

theorem selector?_setParent (id other : NodeId) (parent : Option NodeId) :
    (s.setParent id parent).selector? other = s.selector? other := by
  rw [selector?, content?_setParent, selector?]

namespace RuleChain

variable {last next : NodeId} {inner outer : List NodeId}

theorem eq_of_cons {rule : NodeId} (h : s.RuleChain id (rule :: outer)) : id = rule := by
  cases h <;> rfl

theorem exists_selector {rule : NodeId} (h : s.RuleChain id (rule :: outer)) :
    ∃ selector, s.selector? rule = some selector :=
  exists_selector? (h.isRule_of_mem rule List.mem_cons_self)

theorem exists_parent {rule : NodeId} (h : s.RuleChain id (rule :: outer)) (hne : outer ≠ []) :
    ∃ parent, s.parent? rule = some parent ∧ s.RuleChain parent outer := by
  cases h with
  | alone => exact absurd rfl hne
  | inside _ hparent houter => exact ⟨_, hparent, houter⟩

/-- The chain goes on from each of its rules as from the first. -/
theorem of_append (h : s.RuleChain id (inner ++ next :: outer)) :
    s.RuleChain next (next :: outer) := by
  induction inner generalizing id with
  | nil => exact h.eq_of_cons ▸ h
  | cons rule inner ih =>
      obtain ⟨parent, -, hrest⟩ := h.exists_parent (by simp)
      exact ih hrest

/-- Without its parent the rule `last` ends the chain. -/
theorem cut (h : s.RuleChain id (inner ++ last :: outer)) :
    (s.setParent last none).RuleChain id (inner ++ [last]) := by
  induction inner generalizing id with
  | nil =>
      obtain ⟨selector, hselector⟩ := h.exists_selector
      have hslot := lt_size_of_content? (content?_of_selector? hselector)
      obtain rfl := h.eq_of_cons
      refine .alone ((selector?_setParent ..).trans hselector) ?_
      rw [parent?_setParent, if_pos ⟨rfl, hslot⟩]
  | cons rule inner ih =>
      obtain ⟨selector, hselector⟩ := h.exists_selector
      obtain ⟨parent, hparent, hrest⟩ := h.exists_parent (by simp)
      have hne : rule ≠ last := by
        rintro rfl
        exact (List.nodup_cons.mp h.nodup).1 (by simp)
      obtain rfl := h.eq_of_cons
      refine .inside ((selector?_setParent ..).trans hselector) ?_ (ih hrest)
      rw [parent?_setParent, if_neg fun heq => hne heq.1, hparent]

/-- Between `last` and `next` the chain falls into two that are expanded alone. -/
theorem expandedSelectors_cut (h : s.RuleChain id (inner ++ last :: next :: outer))
    (hitems : ∀ text ∈ s.ruleTexts (inner ++ last :: next :: outer), items text ≠ []) :
    s.expandedSelectors id =
      .ok (cross (expand (s.ruleTexts (next :: outer)))
        (expand (s.ruleTexts (inner ++ [last])))) := by
  have hchain := h.expandedSelectors_eq
  have hrules := h.isRule_of_mem
  rw [List.append_cons] at hchain hrules hitems
  obtain ⟨hinner, houter⟩ := List.forall_mem_append.mp hrules
  rw [ruleTexts_append hinner] at hchain hitems
  obtain ⟨hinnerItems, houterItems⟩ := List.forall_mem_append.mp hitems
  have hinnerTexts : s.ruleTexts (inner ++ [last]) ≠ [] := by
    rw [ruleTexts_append fun rule hrule => hinner rule (List.mem_append_left _ hrule)]
    exact List.append_ne_nil_of_right_ne_nil _ (ruleTexts_ne_nil (hinner last (by simp)) [])
  have houterTexts := ruleTexts_ne_nil (houter next List.mem_cons_self) outer
  rw [hchain, expand_append hinnerTexts hinnerItems (expand_ne_nil houterTexts houterItems)]

end RuleChain

/-- Crossing lists of selectors is associative as long as none in the middle is
empty. So the chain of rules around a node may be cut anywhere if each has an
item: the selectors of the inner part, expanded without what is around it, stand
within those of the outer part. -/
theorem expansion_regroups :
    (∀ outer middle inner : List String, "" ∉ middle →
        cross (cross outer middle) inner = cross outer (cross middle inner)) ∧
      ∀ (s : Sheet) (id last next : NodeId) (inner outer : List NodeId),
        s.RuleChain id (inner ++ last :: next :: outer) →
          (∀ rule ∈ inner ++ last :: next :: outer, ∀ selector,
            s.selector? rule = some selector → items selector ≠ []) →
            ∃ around within, s.expandedSelectors next = .ok around ∧
              (s.setParent last none).expandedSelectors id = .ok within ∧
                s.expandedSelectors id = .ok (cross around within) := by
  refine ⟨fun outer middle inner h => cross_cross outer h inner, ?_⟩
  intro s id last next inner outer h hitems
  have htexts : ∀ text ∈ s.ruleTexts (inner ++ last :: next :: outer), items text ≠ [] := by
    intro text htext
    obtain ⟨rule, hrule, hselector⟩ := exists_of_mem_ruleTexts htext
    exact hitems rule hrule text hselector
  have houter : s.RuleChain next (next :: outer) := by
    rw [List.append_cons] at h
    exact h.of_append
  have hinner := h.cut.expandedSelectors_eq
  rw [ruleTexts_congr fun _ => selector?_setParent ..] at hinner
  exact ⟨_, _, houter.expandedSelectors_eq, hinner, h.expandedSelectors_cut htexts⟩

/-- `.a, .b { &:hover, .c { > d, & & { } } }` -/
def threeLevels : Sheet where
  nodes := #[⟨.root, none, [1]⟩, ⟨.rule ".a, .b", some 0, [2]⟩, ⟨.rule "&:hover, .c", some 1, [3]⟩,
    ⟨.rule "> d, & &", some 2, []⟩]
  nonempty := by decide

theorem expansion_regroups_threeLevels :
    cross (cross [".a"] ["&:b", "&"]) ["&", ""] = cross [".a"] (cross ["&:b", "&"] ["&", ""]) ∧
      threeLevels.expandedSelectors 1 = .ok [".a", ".b"] ∧
      (threeLevels.setParent 2 none).expandedSelectors 3 =
        .ok ["&:hover > d", "&:hover &", ".c > d", ".c &"] ∧
      threeLevels.expandedSelectors 3 =
        .ok (cross [".a", ".b"] ["&:hover > d", "&:hover &", ".c > d", ".c &"]) := by
  have hchain : threeLevels.RuleChain 3 ([3] ++ 2 :: 1 :: []) :=
    .inside rfl rfl (.inside rfl rfl (.inside rfl rfl (.noRule rfl)))
  have hitems : ∀ rule ∈ [3] ++ 2 :: 1 :: [], ∀ selector,
      threeLevels.selector? rule = some selector → items selector ≠ [] := by
    intro rule hrule selector hselector
    have hrule : rule = 3 ∨ rule = 2 ∨ rule = 1 := by simpa using hrule
    rcases hrule with rfl | rfl | rfl <;> cases hselector <;> decide +kernel
  have haround : threeLevels.expandedSelectors 1 = .ok [".a", ".b"] := by decide +kernel
  have hwithin : (threeLevels.setParent 2 none).expandedSelectors 3 =
      .ok ["&:hover > d", "&:hover &", ".c > d", ".c &"] := by decide +kernel
  obtain ⟨around, within, haround', hwithin', hwhole⟩ :=
    expansion_regroups.2 threeLevels 3 2 1 [3] [] hchain hitems
  rw [haround] at haround'
  rw [hwithin] at hwithin'
  cases haround'
  cases hwithin'
  exact ⟨expansion_regroups.1 _ _ _ (by decide), haround, hwithin, hwhole⟩

end Sheet

end Unnest
