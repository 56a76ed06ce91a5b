import Unnest.Proofs.Flatten.Outcome
import Unnest.Proofs.Selector.Joined

/-!
# Selectors across a pass

A copy carries its selectors as one text, and rules that are promoted later
read them off this text. Where all items are closed nothing is lost by that:
the pass works out the selectors that a rule had before it, and every
declaration stays within the same selectors.
-/

namespace Unnest.Flatten

open Selector Sheet

/-- No item of an attached rule opens a bracket, string or escape that it does
not close. -/
def ItemsClosed (s : Sheet) : Prop :=
  ∀ id ∈ s.ids, s.isAttached id = true → ∀ selector ∈ s.selector? id,
    ∀ item ∈ items selector, isClosed item.toList = true

instance (s : Sheet) : Decidable (ItemsClosed s) :=
  inferInstanceAs (Decidable (∀ id ∈ s.ids, _ → ∀ selector ∈ s.selector? id, _))

section

variable {s : Sheet} (hs : s.Linked) (hclosed : ItemsClosed s)
include hs hclosed

theorem whole_of_mem_expand_ruleTexts {ids : List NodeId} {item : String}
    (hids : ∀ id ∈ ids, s.Below rootId id) (h : item ∈ expand (s.ruleTexts ids)) :
    Whole item.toList := by
  refine whole_of_mem_expand ?_ h
  intro selector hselector
  obtain ⟨id, hid, hsome⟩ := exists_of_mem_ruleTexts hselector
  exact hclosed id (mem_ids.mpr (hs.lt_size (hids id hid)))
    (hs.isAttached_iff.mpr (hids id hid)) selector hsome

/-- Reading selectors off the text of a copy makes no difference. -/
theorem passItems_eq_expand {ids : List NodeId} (hids : ∀ id ∈ ids, s.Below rootId id) :
    passItems s ids = expand (s.ruleTexts ids) := by
  induction ids with
  | nil => rfl
  | cons id outer ih =>
      have houter := ih fun other hother => hids other (List.mem_cons_of_mem _ hother)
      have hwhole {item : String} (h : item ∈ expand (s.ruleTexts (id :: outer))) :=
        whole_of_mem_expand_ruleTexts hs hclosed hids h
      rw [expand_ruleTexts_cons] at hwhole ⊢
      rw [passItems, houter]
      cases hselector : s.selector? id with
      | none => rfl
      | some selector =>
          simp only [hselector] at hwhole ⊢
          split
          · exact items_intercalate fun item hitem => hwhole hitem
          · rfl

theorem exists_expandedSelectors {rule : NodeId} (hrule : Promoted s rule) :
    ∃ selectors, s.expandedSelectors rule = .ok selectors ∧
      copySelector s rule = separator.intercalate selectors ∧
        ∀ item ∈ selectors, Whole item.toList := by
  have hbelow := hrule.below hs
  have hchain := (hs.chain_ancestors hbelow).1
  have hancestors : ∀ id ∈ s.ancestors rule, s.Below rootId id := fun id hid =>
    (hs.below_of_mem_chain hbelow hchain hid).1
  have hselector := hrule.isRule
  rw [isRule_eq_isSome_selector?, Option.isSome_iff_exists] at hselector
  obtain ⟨selector, hselector⟩ := hselector
  refine ⟨_, hs.expandedSelectors_eq hbelow hchain, ?_, ?_⟩
  · rw [copySelector, passItems_eq_expand hs hclosed hancestors, hselector,
      expand_ruleTexts_cons, hselector]
    rfl
  · intro item hitem
    refine whole_of_mem_expand_ruleTexts hs hclosed ?_ hitem
    intro id hid
    rcases List.mem_cons.mp hid with rfl | hid
    · exact hbelow
    · exact hancestors id hid

end

namespace IsFlattening

variable {s t : Sheet} {preserveEmpty : Bool}

theorem selector?_eq (h : IsFlattening s preserveEmpty t) {id : NodeId} (hid : id < s.size) :
    t.selector? id = s.selector? id := by
  rw [selector?, selector?, h.content? hid]

theorem expandedSelectors_copy (h : IsFlattening s preserveEmpty t) (ht : t.Linked) {k : Nat}
    {rule : NodeId} (hk : (promotedRules s)[k]? = some rule) :
    t.expandedSelectors (s.size + k) = .ok (items (copySelector s rule)) := by
  apply ht.expandedSelectors_of_parent?_root
  · rw [selector?, h.content?_copy hk]
    rfl
  · exact h.parent?_copy (List.getElem?_eq_some_iff.mp hk).1

theorem expandedSelectors_stay (hs : s.Linked) (h : IsFlattening s preserveEmpty t)
    (ht : t.Linked) {id : NodeId} (hid : s.Below rootId id) (hdecl : s.hasDeclarations id = true)
    (hstays : ¬ Promoted s id) : t.expandedSelectors id = s.expandedSelectors id := by
  have hattached := hs.isAttached_iff.mpr hid
  cases hselector : s.selector? id with
  | none =>
      rw [expandedSelectors_of_selector?_eq_none hselector]
      rw [← h.selector?_eq (hs.lt_size hid)] at hselector
      rw [expandedSelectors_of_selector?_eq_none hselector]
  | some selector =>
      have hrule : s.isRule id = true := by
        rw [isRule_eq_isSome_selector?, hselector]
        rfl
      have hparent : s.parent? id = some rootId := by
        by_contra hnested
        exact hstays ⟨hattached, hrule, hnested, hdecl⟩
      have hroot : ¬ Promoted s rootId := fun hroot => hs.ne_root_of_isRule hroot.isRule rfl
      have hplace : ¬ Departs s preserveEmpty id := by
        rintro (hpromoted | ⟨-, hemptied⟩)
        · exact hstays hpromoted
        · rw [hemptied.not_hasDeclarations] at hdecl
          cases hdecl
      rw [hs.expandedSelectors_of_parent?_root hselector hparent]
      rw [← h.selector?_eq (hs.lt_size hid)] at hselector
      exact ht.expandedSelectors_of_parent?_root hselector
        (h.parent? hattached hplace hparent hroot)

/-- A declaration is within the same selectors before and after the pass. -/
theorem expandedSelectors_declaration (hs : s.Linked) (hclosed : ItemsClosed s)
    (h : IsFlattening s preserveEmpty t) (ht : t.Linked) {id : NodeId}
    (hid : s.Below rootId id) (hdecl : s.isDeclaration id = true) :
    ∃ outer outer' selectors, s.parent? id = some outer ∧ t.parent? id = some outer' ∧
      s.expandedSelectors outer = .ok selectors ∧ t.expandedSelectors outer' = .ok selectors := by
  have hattached := hs.isAttached_iff.mpr hid
  have hne : id ≠ rootId := by
    rintro rfl
    simp [isDeclaration, hs.content?_root, Content.isDeclaration] at hdecl
  have hplace : ¬ Departs s preserveEmpty id := by
    intro hdeparts
    rw [isDeclaration_eq_false_of_isRule hdeparts.isRule] at hdecl
    cases hdecl
  obtain ⟨outer, hparent, houter⟩ := hs.exists_parent? hid hne
  by_cases hpromoted : Promoted s outer
  · obtain ⟨k, hk⟩ := exists_getElem?_of_mem ((mem_promotedRules hs).mpr hpromoted)
    obtain ⟨selectors, hselectors, hcopy, hwhole⟩ := exists_expandedSelectors hs hclosed hpromoted
    refine ⟨outer, s.size + k, selectors, hparent, h.parent?_moved hattached hplace hparent hk,
      hselectors, ?_⟩
    rw [h.expandedSelectors_copy ht hk, hcopy]
    exact congrArg Except.ok (items_intercalate hwhole)
  · have hhas : s.hasDeclarations outer = true :=
      List.any_eq_true.mpr ⟨id, hs.mem_children hparent, hdecl⟩
    refine ⟨outer, outer, _, hparent, h.parent? hattached hplace hparent hpromoted,
      hs.expandedSelectors_eq houter (hs.chain_ancestors houter).1, ?_⟩
    rw [h.expandedSelectors_stay hs ht houter hhas hpromoted]
    exact hs.expandedSelectors_eq houter (hs.chain_ancestors houter).1

end IsFlattening

/-- A pass over closed selectors leaves every declaration where it applies: the
copies spell out what their rules meant, and what was a rule keeps its text. -/
theorem pass_keeps_selectors {s : Sheet} (hvalid : s.validate = .ok ())
    (hroot : s.parent? rootId = none) (hclosed : ItemsClosed s) (options : Options)
    (log : List LogEntry) :
    ∃ tally t log', RunM.exec (pass options) ⟨s, log⟩ = (.ok tally, ⟨t, log'⟩) ∧
      (∀ (k : Nat) rule, (promotedRules s)[k]? = some rule →
        ∃ selectors, s.expandedSelectors rule = .ok selectors ∧
          t.content? (s.size + k) = some (.rule (separator.intercalate selectors))) ∧
      (∀ id, s.isRule id = true → t.selector? id = s.selector? id) ∧
      ∀ id, s.isAttached id = true → s.isDeclaration id = true →
        ∃ outer outer' selectors, s.parent? id = some outer ∧ t.parent? id = some outer' ∧
          s.expandedSelectors outer = .ok selectors ∧
            t.expandedSelectors outer' = .ok selectors := by
  have hs := linked_of_validate hvalid hroot
  obtain ⟨moves, t, hexec, -, hstage, hend⟩ := Stage.exec_pass hs hvalid options log
  have h := hstage.isFlattening hs hend
  refine ⟨_, t, _, hexec, ?_, ?_, ?_⟩
  · intro k rule hk
    have hrule := (mem_promotedRules hs).mp (List.mem_of_getElem? hk)
    obtain ⟨selectors, hselectors, hcopy, -⟩ := exists_expandedSelectors hs hclosed hrule
    exact ⟨selectors, hselectors, hcopy ▸ h.content?_copy hk⟩
  · intro id hrule
    rw [isRule_eq_isSome_selector?, Option.isSome_iff_exists] at hrule
    obtain ⟨selector, hselector⟩ := hrule
    obtain ⟨content, hcontent, -⟩ := Option.bind_eq_some_iff.mp hselector
    exact h.selector?_eq (lt_size_of_content? hcontent)
  · intro id hattached hdecl
    exact h.expandedSelectors_declaration hs hclosed (hstage.linked hs)
      (hs.isAttached_iff.mp hattached) hdecl

/-- `a, b { x: y; &:c, d { x: y; &.e { x: y } } }` -/
def listedSheet : Sheet where
  nodes := #[⟨.root, none, [1]⟩, ⟨.rule "a, b", some 0, [2, 3]⟩,
    ⟨.declaration "x" "y" false, some 1, []⟩, ⟨.rule "&:c, d", some 1, [4, 5]⟩,
    ⟨.declaration "x" "y" false, some 3, []⟩, ⟨.rule "&.e", some 3, [6]⟩,
    ⟨.declaration "x" "y" false, some 5, []⟩]
  nonempty := by decide

theorem pass_keeps_selectors_listedSheet :
    listedSheet.validate = .ok () ∧ listedSheet.parent? rootId = none ∧ ItemsClosed listedSheet ∧
      listedSheet.expandedSelectors 5 = .ok ["a:c.e", "a d.e", "b:c.e", "b d.e"] ∧
      ∃ tally t log', RunM.exec (pass {}) ⟨listedSheet, []⟩ = (.ok tally, ⟨t, log'⟩) ∧
        t.content? 8 = some (.rule "a:c.e, a d.e, b:c.e, b d.e") := by
  have hvalid : listedSheet.validate = .ok () := by decide +kernel
  have hroot : listedSheet.parent? rootId = none := by decide
  have hclosed : ItemsClosed listedSheet := by decide +kernel
  have hexpanded : listedSheet.expandedSelectors 5 =
      .ok ["a:c.e", "a d.e", "b:c.e", "b d.e"] := by decide +kernel
  refine ⟨hvalid, hroot, hclosed, hexpanded, ?_⟩
  obtain ⟨tally, t, log', hexec, hcopies, -⟩ :=
    pass_keeps_selectors hvalid hroot hclosed {} []
  have hids : listedSheet.ids = [0, 1, 2, 3, 4, 5, 6] := rfl
  have hwalk : listedSheet.walk = [0, 1, 2, 3, 4, 5, 6] := by
    rw [walk, hids]
    simp [walkFrom, listedSheet, rootId, children, get?]
  have hrule : (promotedRules listedSheet)[1]? = some 5 := by
    rw [promotedRules, walkRules, hwalk]
    decide
  obtain ⟨selectors, hselectors, hcontent⟩ := hcopies 1 5 hrule
  rw [hexpanded] at hselectors
  cases hselectors
  exact ⟨tally, t, log', hexec, hcontent⟩

end Unnest.Flatten
