import Unnest.Proofs.Flatten.History
import Unnest.Proofs.Flatten.Selectors
import Unnest.Proofs.Selector.Legible
import Unnest.Proofs.Source.Reprint

/-!
# Reading a flattened sheet again

A pass moves nodes about, and only the texts of the copies are new. If a sheet
was read from a text and comes back when it is printed, then its flattening does
so exactly if these texts are read as they stand.

Resolving puts texts of different rules side by side, and the reader may see in
them what it saw in neither: `a/` around `&*b` opens a comment. Closed selectors
that neither begin nor end in such a way keep clear of that.
-/

namespace Unnest.Flatten

open Selector Sheet Text

/-- No item of an attached rule begins like an at-rule or ends like the opening
of a comment. -/
def ItemsPlain (s : Sheet) : Prop :=
  ∀ id ∈ s.ids, s.isAttached id = true → ∀ selector ∈ s.selector? id,
    ∀ item ∈ items selector, item.toList.head? ≠ some '@' ∧ item.toList.getLast? ≠ some '/'

instance (s : Sheet) : Decidable (ItemsPlain s) :=
  inferInstanceAs (Decidable (∀ id ∈ s.ids, _ → ∀ selector ∈ s.selector? id, _))

/-! ## Texts of copies -/

private theorem solid_of_mem_passItems {s : Sheet} {ids : List NodeId} :
    ∀ item ∈ passItems s ids, Solid item.toList := by
  induction ids with
  | nil => simp [passItems]
  | cons id outer ih =>
      intro item hitem
      rw [passItems] at hitem
      split at hitem
      · cases hitem
      · next selector _ =>
          split at hitem
          · exact solid_of_mem_items hitem
          · exact forall_mem_within (P := fun item => Solid item.toList) solid_resolve ih
              (fun _ => solid_of_mem_items) item hitem

theorem trimmed_copySelector (s : Sheet) (rule : NodeId) :
    Trimmed (copySelector s rule).toList := by
  rw [copySelector]
  exact trimmed_intercalate (forall_mem_within (P := fun item => Solid item.toList) solid_resolve
    solid_of_mem_passItems fun _ => solid_of_mem_items)

/-- Closed and plain items of rules that are read back give the copies texts
that are read as they stand. -/
theorem readAsRule_copySelector {s : Sheet} (hs : s.Linked) (hclosed : ItemsClosed s)
    (hplain : ItemsPlain s)
    (hreads : ∀ id content, s.content? id = some content → content.ReadsBack) {rule : NodeId}
    (hrule : Promoted s rule) : ReadAsRule (copySelector s rule) := by
  have hbelow := hrule.below hs
  have hchain := (hs.chain_ancestors hbelow).1
  obtain ⟨selectors, hselectors, hcopy, -⟩ := exists_expandedSelectors hs hclosed hrule
  rw [hs.expandedSelectors_eq hbelow hchain, Except.ok.injEq] at hselectors
  rw [hcopy, ← hselectors]
  apply readAsRule_intercalate
  refine forall_mem_expand (P := fun item => Legible item.toList) legible_resolve ?_
  intro selector hselector item hitem
  obtain ⟨id, hid, hsome⟩ := exists_of_mem_ruleTexts hselector
  have hbelow : s.Below rootId id := by
    rcases List.mem_cons.mp hid with rfl | hid
    · exact hbelow
    · exact (hs.below_of_mem_chain hbelow hchain hid).1
  have hmem := mem_ids.mpr (hs.lt_size hbelow)
  have hattached := hs.isAttached_iff.mpr hbelow
  have hclosed := hclosed id hmem hattached selector hsome item hitem
  have hplain := hplain id hmem hattached selector hsome item hitem
  have hcontent := content?_of_selector? hsome
  exact ⟨run?_of_mem_items (hreads id _ hcontent) hitem hclosed,
    (solid_of_mem_items hitem).ne_nil, hplain.1, hplain.2⟩

/-! ## Nodes of a stage -/

namespace Stage

variable {s t : Sheet} {done pruned : List NodeId} (h : Stage s done pruned t)
include h

theorem parent?_of_size_le {id : NodeId} {content : Content} (hnew : s.size ≤ id)
    (hcontent : t.content? id = some content) :
    t.parent? id = some rootId ∧ ∃ rule ∈ done, content = .rule (copySelector s rule) := by
  obtain ⟨k, rfl⟩ := Nat.exists_eq_add_of_le hnew
  have hk : k < done.length := by
    have hlt := lt_size_of_content? hcontent
    rw [h.size] at hlt
    exact Nat.lt_of_add_lt_add_left hlt
  have hrule := List.getElem?_eq_getElem hk
  rw [h.content?_copy hrule, Option.some.injEq] at hcontent
  exact ⟨h.parent?_copy hk, _, List.getElem_mem hk, hcontent.symm⟩

private theorem parent?_eq_root (hs : s.Linked) {id : NodeId} (hid : id < s.size)
    (hparent : t.parent? id = some rootId) : s.parent? id = some rootId := by
  rw [h.parent? hid] at hparent
  split at hparent
  · cases hparent
  · obtain ⟨parent, hparent, hhome⟩ := Option.map_eq_some_iff.mp hparent
    have hlt : home s done parent < s.size := by
      rw [hhome]
      exact hs.lt_size .refl
    rw [eq_of_home_lt hlt] at hhome
    rw [hparent, hhome]

end Stage

/-! ## The text of the last stage -/

section

variable {source : String} {s t : Sheet} {done pruned : List NodeId}
variable (hparse : parse source = .ok s)
  (hreads : ∀ id content, s.content? id = some content → content.ReadsBack)
  (h : Stage s done pruned t)
include hparse hreads h

private theorem Stage.storedAt
    (hcopies : ∀ id selector, s.size ≤ id → t.content? id = some (.rule selector) →
      ReadAsRule selector)
    {id : NodeId} {content : Content} (hid : id ≠ rootId)
    (hcontent : t.content? id = some content) :
    t.StoredAt id content ∧ content.ReadsBack := by
  have hs := (wellFormed_of_parse hparse).linked
  rcases Nat.lt_or_ge id s.size with hold | hnew
  · rw [h.content? hold] at hcontent
    obtain ⟨hstored, hplace⟩ := storedAt_of_parse hparse hid hcontent
    refine ⟨⟨hstored, ?_⟩, hreads id content hcontent⟩
    exact fun hdecl hparent => hplace hdecl (h.parent?_eq_root hs hold hparent)
  · obtain ⟨-, rule, -, rfl⟩ := h.parent?_of_size_le hnew hcontent
    have hread := hcopies id _ hnew hcontent
    rw [readAsRule_iff (trimmed_copySelector s rule)] at hread
    refine ⟨⟨hread.1, ?_⟩, hread.2⟩
    rintro ⟨⟩

private theorem Stage.parse_print_iff_copies (ht : t.WellFormed) :
    (∃ u, parse t.print = .ok u ∧ t.Renumbered u) ↔
      ∀ id selector, s.size ≤ id → t.content? id = some (.rule selector) →
        ReadAsRule selector := by
  have hs := (wellFormed_of_parse hparse).linked
  obtain ⟨forest, hforest⟩ := ht.linked.exists_holds
  have hids {id : NodeId} : id ∈ forest.ids ↔ t.Below rootId id ∧ id ≠ rootId :=
    ht.linked.mem_ids_of_holds hforest
  rw [parse_print_iff ht.linked hforest]
  constructor
  · rintro ⟨hfits, hall⟩ id selector hnew hcontent
    obtain ⟨hparent, rule, -, heq⟩ := h.parent?_of_size_le hnew hcontent
    have hid : id ∈ forest.ids := hids.mpr ⟨ht.linked.below_of_parent? hparent .refl,
      Nat.ne_of_gt (Nat.lt_of_lt_of_le (hs.lt_size .refl) hnew)⟩
    have hstored := storedAt_of_fits ht.linked hforest.mirrors (fun _ => rfl) hfits
    rw [hforest.mirrors.all_iff] at hstored hall
    have hread := And.intro (hstored id hid _ hcontent).1 (hall id hid _ hcontent)
    cases heq
    exact (readAsRule_iff (trimmed_copySelector s rule)).mpr hread
  · intro hcopies
    have hnodes : ∀ id ∈ forest.ids, ∀ content, t.content? id = some content →
        t.StoredAt id content ∧ content.ReadsBack :=
      fun id hid content => h.storedAt hparse hreads hcopies (hids.mp hid).2
    rw [← hforest.mirrors.all_iff] at hnodes
    exact ⟨fits_of_storedAt ht hforest.mirrors (fun _ => rfl) (hnodes.imp fun _ _ => And.left),
      hnodes.imp fun _ _ => And.right⟩

end

/-! ## The printed flattening -/

theorem exists_exec_pass_parse_print {source : String} {s : Sheet} (hparse : parse source = .ok s)
    (hreads : ∀ id content, s.content? id = some content → content.ReadsBack) (options : Options)
    (log : List LogEntry) :
    ∃ tally t log' pruned, RunM.exec (pass options) ⟨s, log⟩ = (.ok tally, ⟨t, log'⟩) ∧
      Stage s (promotedRules s) pruned t ∧
      ((∃ u, parse t.print = .ok u ∧ t.Renumbered u) ↔
        ∀ id selector, s.size ≤ id → t.content? id = some (.rule selector) →
          ReadAsRule selector) := by
  have hwellFormed := wellFormed_of_parse hparse
  have hs := hwellFormed.linked
  obtain ⟨moves, t, hexec, -, hstage, -⟩ :=
    Stage.exec_pass hs hs.consistent.validate_eq_ok options log
  have ht := stable_wellFormed.pass options ⟨s, log⟩ hwellFormed
  rw [hexec] at ht
  exact ⟨_, t, _, _, hexec, hstage, hstage.parse_print_iff_copies hparse hreads ht⟩

/-- The flattening of a sheet that was read and is read back is read back too,
as its attached part in document order, exactly if the text of each copy is read
as it stands. Closed and plain selectors are enough for that. -/
theorem parse_print_pass_iff {source : String} {s : Sheet} (hparse : parse source = .ok s)
    (hagain : parse s.print = .ok s) (options : Options) (log : List LogEntry) :
    ∃ tally t log', RunM.exec (pass options) ⟨s, log⟩ = (.ok tally, ⟨t, log'⟩) ∧
      ((∃ u, parse t.print = .ok u ∧ t.Renumbered u) ↔
        ∀ id selector, s.size ≤ id → t.content? id = some (.rule selector) →
          ReadAsRule selector) ∧
      (ItemsClosed s → ItemsPlain s → ∃ u, parse t.print = .ok u ∧ t.Renumbered u) := by
  have hs := (wellFormed_of_parse hparse).linked
  have hreads := readsBack_of_parse_print hparse hagain
  obtain ⟨tally, t, log', pruned, hexec, hstage, hiff⟩ :=
    exists_exec_pass_parse_print hparse hreads options log
  refine ⟨tally, t, log', hexec, hiff, ?_⟩
  intro hclosed hplain
  apply hiff.mpr
  intro id selector hnew hcontent
  obtain ⟨-, rule, hrule, heq⟩ := hstage.parent?_of_size_le hnew hcontent
  cases heq
  exact readAsRule_copySelector hs hclosed hplain hreads ((mem_promotedRules hs).mp hrule)

theorem parse_print_pass_iff_listedSheet :
    parse "a, b{x:y;&:c, d{x:y;&.e{x:y}}}" = .ok listedSheet ∧
      parse listedSheet.print = .ok listedSheet ∧
      ∃ tally t log', RunM.exec (pass {}) ⟨listedSheet, []⟩ = (.ok tally, ⟨t, log'⟩) ∧
        ∃ u, parse t.print = .ok u ∧ t.Renumbered u := by
  have hparse : parse "a, b{x:y;&:c, d{x:y;&.e{x:y}}}" = .ok listedSheet := by
    decide +kernel
  have hagain : parse listedSheet.print = .ok listedSheet := by
    apply parse_print_of_readsBack hparse
    intro id content hcontent
    match id with
    | 0 | 1 | 2 | 3 | 4 | 5 | 6 =>
        cases hcontent
        decide
    | _ + 7 => cases hcontent
  have hclosed : ItemsClosed listedSheet := by decide +kernel
  have hplain : ItemsPlain listedSheet := by decide +kernel
  obtain ⟨tally, t, log', hexec, -, hreread⟩ := parse_print_pass_iff hparse hagain {} []
  exact ⟨hparse, hagain, tally, t, log', hexec, hreread hclosed hplain⟩

/-- `a/ { &*b { x: y } }` -/
def slashSheet : Sheet where
  nodes := #[⟨.root, none, [1]⟩, ⟨.rule "a/", some 0, [2]⟩, ⟨.rule "&*b", some 1, [3]⟩,
    ⟨.declaration "x" "y" false, some 2, []⟩]
  nonempty := by decide

/-- The copy's text `a/*b` opens a comment. -/
theorem not_parse_print_pass_slashSheet :
    parse "a/{&*b{x:y}}" = .ok slashSheet ∧
      parse slashSheet.print = .ok slashSheet ∧
      ∃ tally t log', RunM.exec (pass {}) ⟨slashSheet, []⟩ = (.ok tally, ⟨t, log'⟩) ∧
        ¬ ∃ u, parse t.print = .ok u ∧ t.Renumbered u := by
  have hparse : parse "a/{&*b{x:y}}" = .ok slashSheet := by decide +kernel
  have hreads : ∀ id content, slashSheet.content? id = some content → content.ReadsBack := by
    intro id content hcontent
    match id with
    | 0 | 1 | 2 | 3 =>
        cases hcontent
        decide
    | _ + 4 => cases hcontent
  obtain ⟨tally, t, log', pruned, hexec, hstage, hiff⟩ :=
    exists_exec_pass_parse_print hparse hreads {} []
  refine ⟨hparse, parse_print_of_readsBack hparse hreads, tally, t, log', hexec, ?_⟩
  rw [hiff]
  intro hcopies
  have hrule : 2 ∈ promotedRules slashSheet :=
    (mem_promotedRules (wellFormed_of_parse hparse).linked).mpr (by decide +kernel)
  obtain ⟨k, hk⟩ := exists_getElem?_of_mem hrule
  have hread := hcopies _ _ (Nat.le_add_right _ k) (hstage.content?_copy hk)
  revert hread
  decide +kernel

end Unnest.Flatten
