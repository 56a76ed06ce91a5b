import Unnest.Proofs.Flatten.Prune
import Unnest.Proofs.Selector.Chain

/-!
# The turn of one rule

When the turn of a rule comes, the promoted rules around it are done. Its
selector is then the one that `copySelector` reads off the sheet before the
pass, and its turn takes one stage to the next.
-/

namespace Unnest.Flatten

open Selector Sheet

def turnEntries (s : Sheet) (rule : NodeId) (removed : List NodeId) : List LogEntry :=
  .promoting rule (copySelector s rule) :: removals removed

theorem exec_visit_stays {t : Sheet} {rule : NodeId} (hattached : t.isAttached rule = true)
    (houter : outerParent? t rule = none) (options : Options) (tally : Tally)
    (log : List LogEntry) :
    RunM.exec (visit options tally rule) ⟨t, log⟩ =
      (.ok { tally with visited := tally.visited + 1 }, ⟨t, log⟩) := by
  simp [visit, RunM.exec_bind, hattached, houter]

/-- The turn of a promoted rule: what it does to a run, whatever the run counts
and logs, and that the rules which go with it are those around it that it
detaches, the innermost first. -/
structure Turn (s : Sheet) (options : Options) (t : Sheet) (rule : NodeId)
    (removed : List NodeId) (t' : Sheet) : Prop where
  attached : t.isAttached rule = true
  exec_visit (tally : Tally) (log : List LogEntry) :
    RunM.exec (visit options tally rule) ⟨t, log⟩ =
      (.ok ⟨tally.visited + 1, tally.promoted + 1, tally.pruned + removed.length⟩,
        ⟨t', log ++ turnEntries s rule removed⟩)
  innermost_first : removed <+: s.ancestors rule
  mem_removed {id : NodeId} :
    id ∈ removed ↔ id ≠ rule ∧ t.isAttached id = true ∧ t'.isAttached id = false

namespace Stage

variable {s t : Sheet} {done pruned : List NodeId}

/-! ## Selectors -/

theorem selector?_eq (h : Stage s done pruned t) {id : NodeId} (hid : id < s.size) :
    t.selector? id = s.selector? id := by
  rw [Sheet.selector?, Sheet.selector?, h.content? hid]

theorem selector?_copy (h : Stage s done pruned t) {k : Nat} {rule : NodeId}
    (hk : done[k]? = some rule) : t.selector? (s.size + k) = some (copySelector s rule) := by
  rw [Sheet.selector?, h.content?_copy hk]
  rfl

/-- A copy stands directly under the root, so its own text is all there is. -/
private theorem expand_ruleTexts_copy (hs : s.Linked) (h : Stage s done pruned t) {id : NodeId}
    {chain : List NodeId} (hid : id ∈ done) (hchain : t.Chain (home s done id) chain) :
    expand (t.ruleTexts (home s done id :: chain)) = items (copySelector s id) := by
  obtain ⟨k, hk⟩ := exists_getElem?_of_mem hid
  have hlt := (List.getElem?_eq_some_iff.mp hk).1
  rw [home_of_getElem? h.nodup hk] at hchain ⊢
  have hroot : t.selector? rootId = none := by
    rw [Sheet.selector?, (h.linked hs).content?_root]
    rfl
  obtain ⟨rest, rfl, -⟩ := hchain.exists_of_parent? (h.parent?_copy hlt)
  simp [ruleTexts, h.selector?_copy hk, hroot, expand, within]

private theorem passItems_promoted (hs : s.Linked) {id : NodeId} {chain : List NodeId}
    (hid : Promoted s id) (hchain : s.Chain id chain) :
    passItems s (id :: chain) = items (copySelector s id) := by
  have hancestors := hs.ancestors_eq (hid.below hs) hchain
  have hrule := hid.isRule
  rw [Sheet.isRule_eq_isSome_selector?, Option.isSome_iff_exists] at hrule
  obtain ⟨selector, hselector⟩ := hrule
  simp [passItems, copySelector, hselector, hid, hancestors]

private theorem expand_ruleTexts_stay (h : Stage s done pruned t) {id : NodeId}
    {outer outer' : List NodeId} (hid : id < s.size) (hdone : id ∉ done)
    (hstays : ¬ Promoted s id)
    (houter : expand (t.ruleTexts outer') = passItems s outer) :
    expand (t.ruleTexts (home s done id :: outer')) = passItems s (id :: outer) := by
  rw [expand_ruleTexts_cons, home_of_not_mem hdone, h.selector?_eq hid, houter, passItems]
  cases s.selector? id <;> simp [hstays]

/-- What the rules in a node inherit, once the promoted ones among it and its
ancestors are done. -/
theorem expand_ruleTexts_home (hs : s.Linked) (h : Stage s done pruned t) {id : NodeId}
    {chain chain' : List NodeId} (hid : s.Below rootId id) (hpruned : id ∉ pruned)
    (hchain : s.Chain id chain) (hchain' : t.Chain (home s done id) chain')
    (hall : ∀ ancestor ∈ id :: chain, Promoted s ancestor → ancestor ∈ done) :
    expand (t.ruleTexts (home s done id :: chain')) = passItems s (id :: chain) := by
  induction hchain generalizing chain' with
  | @nil id hnone =>
      by_cases hdone : id ∈ done
      · rw [expand_ruleTexts_copy hs h hdone hchain',
          passItems_promoted hs (h.promoted hdone) (.nil hnone)]
      · have hgone : id ∉ done ++ pruned := by simp [hdone, hpruned]
        apply expand_ruleTexts_stay h (hs.lt_size hid) hdone
          (fun hpromoted => hdone (hall id (by simp) hpromoted))
        rw [home_of_not_mem hdone] at hchain'
        cases hchain' with
        | nil => rfl
        | cons hsome => simp [h.parent? (hs.lt_size hid), hgone, hnone] at hsome
  | @cons id parent rest hsome hrest ih =>
      by_cases hdone : id ∈ done
      · rw [expand_ruleTexts_copy hs h hdone hchain',
          passItems_promoted hs (h.promoted hdone) (.cons hsome hrest)]
      · have hgone : id ∉ done ++ pruned := by simp [hdone, hpruned]
        have hparent : s.Below rootId parent := hs.below_parent hid hsome
        apply expand_ruleTexts_stay h (hs.lt_size hid) hdone
          (fun hpromoted => hdone (hall id (by simp) hpromoted))
        rw [home_of_not_mem hdone] at hchain'
        obtain ⟨rest', rfl, hrest'⟩ := h.exists_chain_of_parent? hs hid hgone hsome hchain'
        exact ih hparent (h.parent_not_pruned hs hgone hsome) hrest'
          fun ancestor hmem => hall ancestor (by simp [hmem])

theorem below_at_turn (hs : s.Linked) (h : Stage s done pruned t) {rule : NodeId}
    (hrule : Promoted s rule) (hdone : rule ∉ done) : t.Below rootId rule := by
  have hbelow := h.below_home hs (hrule.below hs) (h.not_pruned_of_promoted hrule)
  rwa [home_of_not_mem hdone] at hbelow

/-- The selector that a promoted rule has when its turn comes. -/
theorem joinedSelector_eq (hs : s.Linked) (h : Stage s done pruned t) {rule : NodeId}
    (hrule : Promoted s rule) (hdone : rule ∉ done)
    (hall : ∀ ancestor ∈ s.ancestors rule, Promoted s ancestor → ancestor ∈ done) :
    joinedSelector t rule = .ok (copySelector s rule) := by
  have hbelow := hrule.below hs
  have hlt := hs.lt_size hbelow
  have hgone := h.not_gone_of_promoted hrule hdone
  have hbelow' := h.below_at_turn hs hrule hdone
  have hchain := (hs.chain_ancestors hbelow).1
  obtain ⟨chain', hchain', -⟩ := (h.linked hs).exists_chain hbelow'
  have houter : expand (t.ruleTexts chain') = passItems s (s.ancestors rule) := by
    generalize s.ancestors rule = chain at hchain hall
    cases hchain with
    | nil hnone =>
        obtain ⟨parent, hparent, -⟩ :=
          hs.exists_parent? hbelow (hs.ne_root_of_isRule hrule.isRule)
        simp [hnone] at hparent
    | cons hsome hrest =>
        obtain ⟨rest', rfl, hrest'⟩ := h.exists_chain_of_parent? hs hbelow hgone hsome hchain'
        exact expand_ruleTexts_home hs h (hs.below_parent hbelow hsome)
          (h.parent_not_pruned hs hgone hsome) hrest hrest' hall
  have hselector := hrule.isRule
  rw [Sheet.isRule_eq_isSome_selector?, Option.isSome_iff_exists] at hselector
  obtain ⟨selector, hselector⟩ := hselector
  rw [joinedSelector, (h.linked hs).expandedSelectors_eq hbelow' hchain',
    expand_ruleTexts_cons, h.selector?_eq hlt, hselector, houter, copySelector, hselector]
  rfl

/-! ## Turns -/

theorem exec_promote (hs : s.Linked) (h : Stage s done pruned t) {rule : NodeId}
    (hrule : Promoted s rule) (hdone : rule ∉ done)
    (hall : ∀ ancestor ∈ s.ancestors rule, Promoted s ancestor → ancestor ∈ done) :
    ∃ t', (∀ log, RunM.exec (Flatten.promote rule) ⟨t, log⟩ =
        (.ok (), ⟨t', log ++ [.promoting rule (copySelector s rule)]⟩)) ∧
      Stage s (done ++ [rule]) pruned t' := by
  have hbelow := h.below_at_turn hs hrule hdone
  have hisRule := hrule.isRule
  rw [← h.isRule_eq (hs.lt_size (hrule.below hs))] at hisRule
  obtain ⟨t₁, t₂, t', hcopy, hmove, hdetach, ht⟩ :=
    (h.linked hs).exists_promotion hbelow hisRule (copySelector s rule)
  refine ⟨t', fun log => ?_, h.promote hs hrule hdone ht rfl⟩
  simp only [Flatten.promote, RunM.exec_bind, RunM.exec_getSheet, RunM.exec_settle,
    h.joinedSelector_eq hs hrule hdone hall, RunM.exec_record, RunM.exec_mapError,
    RunM.exec_create, hcopy, Except.mapError, exec_edit, hmove, hdetach]

/-- A promoted rule makes at most the node around it hollow. -/
theorem hollow_after_promote (hs : s.Linked) {rule parent : NodeId}
    (hparent : s.parent? rule = some parent) (hnone : ∀ other, ¬ Hollow s done pruned other)
    {other : NodeId} (hother : Hollow s (done ++ [rule]) pruned other) : other = parent := by
  have hinsert : ∀ id, id ∈ (done ++ [rule]) ++ pruned ↔ id ∈ done ++ pruned ∨ id = rule := by
    intro id
    simp only [List.mem_append, List.mem_singleton]
    tauto
  rcases hollow_of_insert hs hinsert hother with hold | hlast
  · exact absurd hold (hnone other)
  · rw [hparent] at hlast
    exact (Option.some.inj hlast).symm

theorem hasDeclarations_eq (hs : s.Linked) (h : Stage s done pruned t) {rule : NodeId}
    (hbelow : s.Below rootId rule) (hisRule : s.isRule rule = true) (hdone : rule ∉ done) :
    t.hasDeclarations rule = s.hasDeclarations rule := by
  have hchildren := h.children_home hbelow
  rw [home_of_not_mem hdone, if_neg (hs.ne_root_of_isRule hisRule), List.append_nil] at hchildren
  have hdecl : ∀ child ∈ s.children rule, t.isDeclaration child = s.isDeclaration child := by
    intro child hchild
    rw [Sheet.isDeclaration, Sheet.isDeclaration,
      h.content? (hs.lt_size (hbelow.child hchild))]
  rw [Bool.eq_iff_iff, Sheet.hasDeclarations, Sheet.hasDeclarations, hchildren,
    List.any_eq_true, List.any_eq_true]
  constructor
  · rintro ⟨child, hchild, hchildDecl⟩
    have hchild := (List.mem_filter.mp hchild).1
    exact ⟨child, hchild, hdecl child hchild ▸ hchildDecl⟩
  · rintro ⟨child, hchild, hchildDecl⟩
    have hgone := h.declaration_not_gone hchildDecl
    exact ⟨child, List.mem_filter.mpr ⟨hchild, by simpa using hgone⟩,
      (hdecl child hchild).trans hchildDecl⟩

theorem outerParent?_promoted (hs : s.Linked) (h : Stage s done pruned t) {rule parent : NodeId}
    (hrule : Promoted s rule) (hdone : rule ∉ done) (hparent : s.parent? rule = some parent) :
    outerParent? t rule = some (home s done parent) := by
  have hbelow := hrule.below hs
  have hparentBelow := hs.below_parent hbelow hparent
  have hhome := (h.parent?_eq_home_iff hs (hs.lt_size hbelow)
    (h.not_gone_of_promoted hrule hdone) hparentBelow).mpr hparent
  have hne : home s done parent ≠ rootId := by
    rw [ne_eq, h.home_eq_root_iff hs hparentBelow]
    rintro rfl
    exact hrule.2.2.1 hparent
  rw [outerParent?, hhome, h.hasDeclarations_eq hs hbelow hrule.isRule hdone, hrule.2.2.2]
  simp [Option.filter, hne]

theorem outerParent?_not_promoted (hs : s.Linked) (h : Stage s done pruned t) {rule : NodeId}
    (hbelow : s.Below rootId rule) (hisRule : s.isRule rule = true) (hrule : ¬ Promoted s rule) :
    outerParent? t rule = none := by
  have hdone : rule ∉ done := fun hdone => hrule (h.promoted hdone)
  have hparent := h.parent? (hs.lt_size hbelow)
  rw [outerParent?, h.hasDeclarations_eq hs hbelow hisRule hdone, Option.filter_eq_none_iff]
  intro parent hparent' hkeep
  simp only [Bool.and_eq_true, bne_iff_ne] at hkeep
  rw [hparent'] at hparent
  split at hparent
  · cases hparent
  · obtain ⟨origin, horigin, rfl⟩ := Option.map_eq_some_iff.mp hparent.symm
    refine hrule ⟨hs.isAttached_iff.mpr hbelow, hisRule, ?_, hkeep.2⟩
    rw [horigin]
    intro hroot
    cases hroot
    exact hkeep.1 (h.home_root hs)

private theorem mem_removed_iff (hs : s.Linked) {t' : Sheet} {rule : NodeId} {removed : List NodeId}
    (h : Stage s done pruned t) (h' : Stage s (done ++ [rule]) (pruned ++ removed) t')
    {id : NodeId} :
    id ∈ removed ↔ id ≠ rule ∧ t.isAttached id = true ∧ t'.isAttached id = false := by
  rcases Nat.lt_or_ge id s.size with hold | hnew
  · rw [h.isAttached_iff hs hold, ← Bool.not_eq_true, h'.isAttached_iff hs hold]
    constructor
    · intro hid
      have hpruned : id ∈ pruned ++ removed := List.mem_append_right _ hid
      have hdone : id ∉ done ++ [rule] := fun hdone =>
        h'.not_pruned_of_promoted (h'.promoted hdone) hpruned
      have hbefore : id ∉ pruned := fun hbefore =>
        (List.nodup_append.mp h'.nodup_pruned).2.2 id hbefore id hid rfl
      rw [List.mem_append, List.mem_singleton, not_or] at hdone
      exact ⟨hdone.2, ⟨(h'.emptied hpruned).attached, by simp [hdone.1, hbefore]⟩,
        fun hstays => hstays.2 (List.mem_append_right _ hpruned)⟩
    · rintro ⟨hne, ⟨hattached, hgone⟩, hleft⟩
      simp only [List.mem_append, List.mem_singleton] at hleft hgone
      tauto
  · rw [h.isAttached_iff_of_size_le hs hnew, ← Bool.not_eq_true,
      h'.isAttached_iff_of_size_le hs hnew, h.size, h'.size, List.length_append]
    constructor
    · intro hid
      have hgone : id ∈ (done ++ [rule]) ++ (pruned ++ removed) := by simp [hid]
      have hslot := hs.lt_size (h'.below_of_gone hs hgone)
      exact absurd hslot (Nat.not_lt.mpr hnew)
    · rintro ⟨-, hslot, hgone⟩
      exact absurd (Nat.lt_of_lt_of_le hslot (by simp)) hgone

/-- The turn of a promoted rule, with the rules that are removed for it. -/
theorem exists_turn (hs : s.Linked) (h : Stage s done pruned t) {rule : NodeId}
    (hrule : Promoted s rule) (hdone : rule ∉ done)
    (hall : ∀ ancestor ∈ s.ancestors rule, Promoted s ancestor → ancestor ∈ done)
    (options : Options) (hsettled : Settled s options.preserveEmpty done pruned) :
    ∃ removed t', Turn s options t rule removed t' ∧
      Stage s (done ++ [rule]) (pruned ++ removed) t' ∧
      Settled s options.preserveEmpty (done ++ [rule]) (pruned ++ removed) := by
  have hbelow := hrule.below hs
  obtain ⟨parent, hparent, hparentBelow⟩ :=
    hs.exists_parent? hbelow (hs.ne_root_of_isRule hrule.isRule)
  have hattached := (h.linked hs).isAttached_iff.mpr (h.below_at_turn hs hrule hdone)
  have houter := h.outerParent?_promoted hs hrule hdone hparent
  obtain ⟨t₁, hpromote, h₁⟩ := h.exec_promote hs hrule hdone hall
  cases hpreserve : options.preserveEmpty with
  | true =>
      rw [hpreserve] at hsettled
      have h₁' : Stage s (done ++ [rule]) (pruned ++ []) t₁ := by simpa using h₁
      refine ⟨[], t₁, ⟨hattached, fun tally log => ?_, List.nil_prefix,
        mem_removed_iff hs h h₁'⟩, h₁', by simpa [Settled] using hsettled⟩
      simp only [visit, RunM.exec_bind, RunM.exec_getSheet, hattached, Bool.not_true,
        Bool.false_eq_true, if_false, houter, hpromote log, hpreserve, if_true, RunM.exec_pure,
        turnEntries, removals, List.map_nil, List.length_nil, Nat.add_zero]
  | false =>
      rw [hpreserve] at hsettled
      have hparentStays := h.parent_not_pruned hs (h.not_gone_of_promoted hrule hdone) hparent
      have hmem := hs.mem_children hparent
      have hne : parent ≠ rule := by
        rintro rfl
        exact hs.not_mem_children_self hbelow hmem
      have hhome : home s (done ++ [rule]) parent = home s done parent := by
        rw [home_concat hdone, if_neg hne]
      have hpath := ((h₁.linked hs).chain_ancestors
        (h₁.below_home hs hparentBelow hparentStays)).1
      have hchain := (hs.chain_ancestors hbelow).1
      obtain ⟨outer, hancestors, houterChain⟩ := hchain.exists_of_parent? hparent
      obtain ⟨removed, t', hprune, hprefix, hstage, hnone⟩ :=
        h₁.exec_prune hs hparentBelow hparentStays (List.ne_nil_of_mem hmem) hpath houterChain
          fun other hother => hollow_after_promote hs hparent hsettled hother
      rw [hhome] at hprune
      refine ⟨removed, t', ⟨hattached, fun tally log => ?_, hancestors ▸ hprefix,
        mem_removed_iff hs h hstage⟩, hstage, hnone⟩
      simp only [visit, RunM.exec_bind, RunM.exec_getSheet, hattached, Bool.not_true,
        Bool.false_eq_true, if_false, houter, hpromote log, hpreserve, hprune, RunM.exec_pure,
        turnEntries, List.append_assoc, List.singleton_append]

end Stage

end Unnest.Flatten
