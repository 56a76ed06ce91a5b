import Mathlib.Data.Fintype.Pigeonhole
import Mathlib.Logic.Relation
import Unnest.Proofs.Selector.Chain

/-!
# Expansion as a recursion

What a node expands to is said by recursion on the rules around it: `Expands`.
The sheet may be damaged in any way, so the recursion may have no end, and it
has none exactly if the parent links of rules run into a circle.

The walk to the outermost rule makes at most as many steps as there are slots.
The rules of a walk that ends are all different, so that it is never cut short,
and one that does not end always meets the bound.
-/

namespace Unnest.Sheet

open Relation Selector

def StandsIn (s : Sheet) (id outer : NodeId) : Prop :=
  s.isRule id = true ∧ s.parent? id = some outer

/-- The parent links from `id` never leave the rules. -/
def Endless (s : Sheet) (id : NodeId) : Prop :=
  ∃ path : Nat → NodeId, path 0 = id ∧ ∀ n, s.StandsIn (path n) (path (n + 1))

/-- What a node expands to: nothing if it is no rule, its own items if what is
around it expands to nothing, and otherwise each of these inside the first outer
selector, then each inside the second, and so on. -/
inductive Expands (s : Sheet) : NodeId → List String → Prop
  | noRule {id : NodeId} : s.selector? id = none → Expands s id []
  | alone {id : NodeId} {selector : String} :
      s.selector? id = some selector → s.parent? id = none → Expands s id (items selector)
  | inside {id parent : NodeId} {selector : String} {outer : List String} :
      s.selector? id = some selector → s.parent? id = some parent → Expands s parent outer →
        Expands s id
          (if outer = [] then items selector
          else outer.flatMap fun parent => (items selector).map fun child => resolve parent child)

/-- The rules from `id` outwards are those of the list, and they come to an end. -/
inductive RuleChain (s : Sheet) : NodeId → List NodeId → Prop
  | noRule {id : NodeId} : s.selector? id = none → RuleChain s id []
  | alone {id : NodeId} {selector : String} :
      s.selector? id = some selector → s.parent? id = none → RuleChain s id [id]
  | inside {id parent : NodeId} {selector : String} {chain : List NodeId} :
      s.selector? id = some selector → s.parent? id = some parent → RuleChain s parent chain →
        RuleChain s id (id :: chain)

variable {s : Sheet} {id : NodeId}

theorem isRule_of_selector? {selector : String} (h : s.selector? id = some selector) :
    s.isRule id = true := by
  rw [isRule_eq_isSome_selector?, h]
  rfl

theorem exists_selector? (h : s.isRule id = true) : ∃ selector, s.selector? id = some selector :=
  Option.isSome_iff_exists.mp (s.isRule_eq_isSome_selector? id ▸ h)

/-! ## Chains that end -/

namespace RuleChain

variable {chain : List NodeId}

theorem unique {chain' : List NodeId} (h : s.RuleChain id chain) (h' : s.RuleChain id chain') :
    chain = chain' := by
  induction h generalizing chain' with
  | noRule hnone => cases h' <;> simp_all
  | alone hselector hlast => cases h' <;> simp_all
  | inside hselector hparent _ ih =>
      cases h' with
      | noRule hnone => simp [hselector] at hnone
      | alone _ hlast => simp [hparent] at hlast
      | inside _ hparent' hrest =>
          rw [hparent, Option.some.injEq] at hparent'
          rw [ih (hparent' ▸ hrest)]

private theorem exists_of_mem (h : s.RuleChain id chain) {other : NodeId} (hmem : other ∈ chain) :
    ∃ rest, s.RuleChain other rest ∧ rest.length ≤ chain.length := by
  induction h with
  | noRule => cases hmem
  | alone hselector hlast =>
      rw [List.mem_singleton.mp hmem]
      exact ⟨_, .alone hselector hlast, Nat.le_refl _⟩
  | inside hselector hparent hrest ih =>
      rcases List.mem_cons.mp hmem with rfl | hmem
      · exact ⟨_, .inside hselector hparent hrest, Nat.le_refl _⟩
      · obtain ⟨rest, hother, hle⟩ := ih hmem
        exact ⟨rest, hother, Nat.le_succ_of_le hle⟩

theorem nodup (h : s.RuleChain id chain) : chain.Nodup := by
  induction h with
  | noRule => exact List.nodup_nil
  | alone => exact List.nodup_singleton _
  | @inside id parent selector chain hselector hparent hrest ih =>
      refine List.nodup_cons.mpr ⟨?_, ih⟩
      intro hmem
      obtain ⟨rest, hagain, hle⟩ := hrest.exists_of_mem hmem
      rw [hagain.unique (.inside hselector hparent hrest), List.length_cons] at hle
      exact Nat.not_succ_le_self _ hle

theorem isRule_of_mem (h : s.RuleChain id chain) : ∀ other ∈ chain, s.isRule other = true := by
  induction h with
  | noRule => simp
  | alone hselector => simpa using isRule_of_selector? hselector
  | inside hselector _ _ ih => exact List.forall_mem_cons.mpr ⟨isRule_of_selector? hselector, ih⟩

/-- A chain that ends does not go on for longer than there are slots. -/
theorem length_le_size (h : s.RuleChain id chain) : chain.length ≤ s.size := by
  have hsub : chain ⊆ s.ids := by
    intro other hmem
    obtain ⟨selector, hselector⟩ := exists_selector? (h.isRule_of_mem other hmem)
    exact mem_ids.mpr (lt_size_of_content? (content?_of_selector? hselector))
  simpa using (List.subperm_of_subset h.nodup hsub).length_le

theorem selectorChain_eq (h : s.RuleChain id chain) {limit : Nat} (hlimit : chain.length ≤ limit) :
    s.selectorChain limit id = some (s.ruleTexts chain) := by
  induction h generalizing limit with
  | noRule hnone =>
      rw [selectorChain, hnone]
      rfl
  | alone hselector hlast =>
      obtain ⟨limit, rfl⟩ := Nat.exists_eq_add_of_le' hlimit
      simp [selectorChain, ruleTexts, hselector, hlast]
  | inside hselector hparent _ ih =>
      cases limit with
      | zero => simp at hlimit
      | succ limit =>
          simp [selectorChain, ruleTexts, hselector, hparent, ih (Nat.le_of_succ_le_succ hlimit)]

theorem expandedSelectors_eq (h : s.RuleChain id chain) :
    s.expandedSelectors id = .ok (expand (s.ruleTexts chain)) := by
  rw [expandedSelectors, h.selectorChain_eq h.length_le_size]

theorem expands (h : s.RuleChain id chain) : s.Expands id (expand (s.ruleTexts chain)) := by
  induction h with
  | noRule hnone => exact .noRule hnone
  | alone hselector hlast =>
      rw [expand_ruleTexts_cons, hselector]
      exact .alone hselector hlast
  | inside hselector hparent _ ih =>
      rw [expand_ruleTexts_cons, hselector]
      exact .inside hselector hparent ih

end RuleChain

theorem Expands.exists_ruleChain {selectors : List String} (h : s.Expands id selectors) :
    ∃ chain, s.RuleChain id chain ∧ expand (s.ruleTexts chain) = selectors := by
  induction h with
  | noRule hnone => exact ⟨[], .noRule hnone, rfl⟩
  | alone hselector hlast =>
      refine ⟨_, .alone hselector hlast, ?_⟩
      rw [expand_ruleTexts_cons, hselector]
      rfl
  | inside hselector hparent _ ih =>
      obtain ⟨chain, hchain, rfl⟩ := ih
      refine ⟨_, .inside hselector hparent hchain, ?_⟩
      rw [expand_ruleTexts_cons, hselector]
      rfl

/-! ## Chains that do not end -/

/-- Nodes that all stand in others of their kind are in an endless chain. -/
theorem endless_of_closed {P : NodeId → Prop} (hid : P id)
    (hstep : ∀ inner, P inner → ∃ outer, P outer ∧ s.StandsIn inner outer) : s.Endless id := by
  choose! next hnext using hstep
  have hpath : ∀ n, P (next^[n] id) := by
    intro n
    induction n with
    | zero => exact hid
    | succ n ih =>
        rw [Function.iterate_succ_apply']
        exact (hnext _ ih).1
  refine ⟨fun n => next^[n] id, rfl, ?_⟩
  intro n
  simp only [Function.iterate_succ_apply']
  exact (hnext _ (hpath n)).2

theorem Endless.exists_standsIn (h : s.Endless id) :
    ∃ outer, s.StandsIn id outer ∧ s.Endless outer := by
  obtain ⟨path, rfl, hpath⟩ := h
  exact ⟨path 1, hpath 0, fun n => path (n + 1), rfl, fun n => hpath (n + 1)⟩

theorem exists_ruleChain_of_not_endless (h : ¬ s.Endless id) : ∃ chain, s.RuleChain id chain := by
  by_contra hnone
  -- a node without a chain that ends is a rule in another such node
  refine h (endless_of_closed (P := fun id => ¬ ∃ chain, s.RuleChain id chain) hnone ?_)
  intro inner hinner
  cases hselector : s.selector? inner with
  | none => exact absurd ⟨[], .noRule hselector⟩ hinner
  | some selector =>
      cases hparent : s.parent? inner with
      | none => exact absurd ⟨[inner], .alone hselector hparent⟩ hinner
      | some outer =>
          refine ⟨outer, ?_, isRule_of_selector? hselector, hparent⟩
          rintro ⟨chain, hchain⟩
          exact hinner ⟨inner :: chain, .inside hselector hparent hchain⟩

private theorem Endless.selectorChain_eq_none (h : s.Endless id) (limit : Nat) :
    s.selectorChain limit id = none := by
  induction limit generalizing id with
  | zero =>
      obtain ⟨outer, ⟨hrule, -⟩, -⟩ := h.exists_standsIn
      obtain ⟨selector, hselector⟩ := exists_selector? hrule
      simp [selectorChain, hselector]
  | succ limit ih =>
      obtain ⟨outer, ⟨hrule, hparent⟩, houter⟩ := h.exists_standsIn
      obtain ⟨selector, hselector⟩ := exists_selector? hrule
      simp [selectorChain, hselector, hparent, ih houter]

theorem Endless.expandedSelectors_eq (h : s.Endless id) :
    s.expandedSelectors id = .error ⟨id, .endlessChain⟩ := by
  rw [expandedSelectors, h.selectorChain_eq_none]

private theorem StandsIn.lt_size {outer : NodeId} (h : s.StandsIn id outer) : id < s.size := by
  obtain ⟨selector, hselector⟩ := exists_selector? h.1
  exact lt_size_of_content? (content?_of_selector? hselector)

theorem Endless.exists_circle (h : s.Endless id) :
    ∃ rule, ReflTransGen s.StandsIn id rule ∧ TransGen s.StandsIn rule rule := by
  obtain ⟨path, rfl, hpath⟩ := h
  -- there are not enough slots for all nodes of the path to differ
  obtain ⟨n, m, hne, heq⟩ := Finite.exists_ne_map_eq_of_infinite
    fun n => (⟨path n, (hpath n).lt_size⟩ : Fin s.size)
  have heq : path n = path m := congrArg Fin.val heq
  have hreach : ∀ first count, ReflTransGen s.StandsIn (path first) (path (first + count)) := by
    intro first count
    induction count with
    | zero => exact .refl
    | succ count ih => exact ih.tail (hpath _)
  have hcircle : ∀ n m, n < m → path n = path m → TransGen s.StandsIn (path n) (path n) := by
    intro n m hlt heq
    have hback := hreach (n + 1) (m - (n + 1))
    rw [Nat.add_sub_cancel' hlt, ← heq] at hback
    exact .head' (hpath n) hback
  have hto := hreach 0
  simp only [Nat.zero_add] at hto
  rcases Nat.lt_or_gt_of_ne hne with hlt | hlt
  · exact ⟨path n, hto n, hcircle n m hlt heq⟩
  · exact ⟨path m, hto m, hcircle m n hlt heq.symm⟩

private theorem endless_of_circle {rule : NodeId} (hto : ReflTransGen s.StandsIn id rule)
    (hcircle : TransGen s.StandsIn rule rule) : s.Endless id := by
  refine endless_of_closed (P := fun id => ReflTransGen s.StandsIn id rule) hto ?_
  intro inner hinner
  rcases hinner.cases_head with rfl | ⟨outer, hstep, houter⟩
  · obtain ⟨outer, hstep, houter⟩ := TransGen.head'_iff.mp hcircle
    exact ⟨outer, houter, hstep⟩
  · exact ⟨outer, houter, hstep⟩

/-- Expansion fails exactly where the parent links lead from rule to rule
without end, which they do only by running into a circle. Everywhere else the
recursion has exactly one result, and this is the expansion. -/
theorem expandedSelectors_recursion (s : Sheet) (id : NodeId) :
    (s.expandedSelectors id = .error ⟨id, .endlessChain⟩ ↔ s.Endless id) ∧
      (s.Endless id ↔
        ∃ rule, ReflTransGen s.StandsIn id rule ∧ TransGen s.StandsIn rule rule) ∧
      (¬ s.Endless id → ∃ selectors, s.expandedSelectors id = .ok selectors) ∧
      ∀ selectors, s.expandedSelectors id = .ok selectors ↔ s.Expands id selectors := by
  have hends : ¬ s.Endless id → ∃ selectors, s.expandedSelectors id = .ok selectors := by
    intro hid
    obtain ⟨chain, hchain⟩ := exists_ruleChain_of_not_endless hid
    exact ⟨_, hchain.expandedSelectors_eq⟩
  refine ⟨⟨?_, Endless.expandedSelectors_eq⟩, ⟨Endless.exists_circle, ?_⟩, hends, ?_⟩
  · intro herror
    by_contra hid
    obtain ⟨selectors, hok⟩ := hends hid
    simp [hok] at herror
  · rintro ⟨rule, hto, hcircle⟩
    exact endless_of_circle hto hcircle
  · intro selectors
    constructor
    · intro hok
      have hid : ¬ s.Endless id := by
        intro hid
        simp [hid.expandedSelectors_eq] at hok
      obtain ⟨chain, hchain⟩ := exists_ruleChain_of_not_endless hid
      rw [hchain.expandedSelectors_eq, Except.ok.injEq] at hok
      exact hok ▸ hchain.expands
    · intro hexpands
      obtain ⟨chain, hchain, rfl⟩ := hexpands.exists_ruleChain
      exact hchain.expandedSelectors_eq

end Unnest.Sheet
