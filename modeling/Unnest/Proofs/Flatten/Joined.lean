import Unnest.Flatten.Pass
import Unnest.Proofs.Selector.Parsed
import Unnest.Proofs.Sheet.Kept

/-!
# What the selector of a copy stands for

The copy of a promoted rule carries the expanded selectors of its rule as one
text, and whatever reads this text later should find the same selectors in it.
In a sheet that was read from a text it does, unless an item of a selector was
torn by trimming.
-/

namespace Unnest.Flatten

open Selector Sheet

theorem expandedSelectors_of_parse {source : String} {s : Sheet} (h : parse source = .ok s)
    {id : NodeId} (hrule : s.isRule id = true) :
    s.expandedSelectors id = .ok (expand (s.ruleTexts (id :: s.ancestors id))) := by
  have hs := wellFormed_of_parse h
  obtain ⟨content, hcontent, -⟩ := (Option.any_eq_true _ _).mp hrule
  have hid := lt_size_of_content? hcontent
  have hchain := hs.chain_ancestors hid
  have hlength := hchain.length_lt_size
    (List.forall_mem_cons.mpr ⟨hid, hs.chain_lt_size hchain⟩)
  simp only [expandedSelectors, selectorChain_eq_ruleTexts hchain hlength]

/-- The items of a selector that was read are closed, unless they are torn. -/
theorem isClosed_of_parse {source : String} {s : Sheet} (h : parse source = .ok s)
    {ids : List NodeId} {text item : String} (htext : text ∈ s.ruleTexts ids)
    (hitem : item ∈ items text) (htorn : ¬ Torn item.toList) : isClosed item.toList = true := by
  obtain ⟨id, -, hselector⟩ := exists_of_mem_ruleTexts htext
  exact (isClosed_iff_of_parse h hselector hitem).mpr htorn

/-- Which joined selectors are cut into the selectors they were made of: those
that are single items, all but the last of them closed. This is so for each rule
of a parsed sheet without a torn item in its own selector and in those around it. -/
theorem items_joined_of_parse {source : String} {s : Sheet} (h : parse source = .ok s)
    {id : NodeId} (hrule : s.isRule id = true) :
    ∃ selectors, s.expandedSelectors id = .ok selectors ∧
      (items (separator.intercalate selectors) = selectors ↔
        (∀ selector ∈ selectors, items selector = [selector]) ∧
          ∀ selector ∈ selectors.dropLast, isClosed selector.toList = true) ∧
      ((∀ text ∈ s.ruleTexts (id :: s.ancestors id), ∀ item ∈ items text, ¬ Torn item.toList) →
        items (separator.intercalate selectors) = selectors) := by
  refine ⟨_, expandedSelectors_of_parse h hrule, ?_, ?_⟩
  · exact items_intercalate_iff fun selector hselector => proper_of_mem_expand hselector
  · intro htorn
    refine items_intercalate fun selector hselector => whole_of_mem_expand ?_ hselector
    exact fun text htext item hitem => isClosed_of_parse h htext hitem (htorn text htext item hitem)

/-- `a\,b, c { &:is(d, e), f { x: y } }` -/
def commaSheet : Sheet where
  nodes := #[⟨.root, none, [1]⟩, ⟨.rule "a\\,b, c", some 0, [2]⟩,
    ⟨.rule "&:is(d, e), f", some 1, [3]⟩, ⟨.declaration "x" "y" false, some 2, []⟩]
  nonempty := by decide

theorem items_joined_of_parse_commaSheet :
    parse "a\\,b, c\x7b&:is(d, e), f\x7bx:y\x7d\x7d" = .ok commaSheet ∧
      commaSheet.isRule 2 = true ∧
      commaSheet.expandedSelectors 2 =
        .ok ["a\\,b:is(d, e)", "a\\,b f", "c:is(d, e)", "c f"] ∧
      items (separator.intercalate ["a\\,b:is(d, e)", "a\\,b f", "c:is(d, e)", "c f"]) =
        ["a\\,b:is(d, e)", "a\\,b f", "c:is(d, e)", "c f"] := by
  have hparse : parse "a\\,b, c\x7b&:is(d, e), f\x7bx:y\x7d\x7d" = .ok commaSheet := by
    decide +kernel
  have hrule : commaSheet.isRule 2 = true := by decide
  have hexpanded : commaSheet.expandedSelectors 2 =
      .ok ["a\\,b:is(d, e)", "a\\,b f", "c:is(d, e)", "c f"] := by decide +kernel
  obtain ⟨selectors, hselectors, -, hjoined⟩ := items_joined_of_parse hparse hrule
  rw [hexpanded] at hselectors
  cases hselectors
  exact ⟨hparse, hrule, hexpanded, hjoined (by decide +kernel)⟩

/-- `\ ,b { x: y }`. The blank behind the backslash is trimmed. -/
def lostBlankSheet : Sheet where
  nodes := #[⟨.root, none, [1]⟩, ⟨.rule "\\ ,b", some 0, [2]⟩,
    ⟨.declaration "x" "y" false, some 1, []⟩]
  nonempty := by decide

/-- The backslash takes the comma between the two selectors into the first. -/
theorem items_joined_ne_lostBlankSheet :
    parse "\\ ,b\x7bx:y\x7d" = .ok lostBlankSheet ∧
      lostBlankSheet.expandedSelectors 1 = .ok ["\\", "b"] ∧
      items (separator.intercalate ["\\", "b"]) ≠ ["\\", "b"] := by
  refine ⟨?_, ?_, ?_⟩
  all_goals decide +kernel

end Unnest.Flatten
