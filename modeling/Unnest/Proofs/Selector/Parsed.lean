import Unnest.Proofs.Selector.Outside
import Unnest.Proofs.Source.Contents

/-!
# Selectors of parsed sheets

The reader of heads and the scan of a selector list count brackets, strings and
escapes alike. So the scan of a stored selector ends outside of brackets and
strings, and an item of it is open only where trimming took what a backslash
had escaped.
-/

namespace Unnest.Selector

open Source

variable {source : String} {s : Sheet} {id : NodeId} {selector item : String}

theorem outside_of_parse (h : parse source = .ok s) (hselector : s.selector? id = some selector) :
    (({} : Scan).after selector.toList).Outside := by
  obtain ⟨input, head, left, -, hread, rfl⟩ := isBlockHead_of_parse h hselector
  rw [String.toList_ofList]
  exact outside_of_read hread (List.cons_ne_nil _ _)

theorem isClosed_iff_of_parse (h : parse source = .ok s)
    (hselector : s.selector? id = some selector) (hitem : item ∈ items selector) :
    isClosed item.toList = true ↔ ¬ Torn item.toList :=
  isClosed_iff.trans (and_iff_right (outside_of_mem_items (outside_of_parse h hselector) hitem))

theorem subset_of_parse (h : parse source = .ok s) (hselector : s.selector? id = some selector) :
    selector.toList ⊆ source.toList := by
  obtain ⟨input, head, left, hinput, hread, rfl⟩ := isBlockHead_of_parse h hselector
  obtain ⟨front, rear, hsplit, -⟩ := Text.exists_blanks_trim head
  rw [String.toList_ofList]
  intro c hc
  have hhead : c ∈ head := by
    rw [hsplit]
    simp [hc]
  exact hinput.subset ((Head.sublist_of_readFrom hread).subset hhead)

/-- The scan of a selector that was read ends outside of brackets and strings. Its
items are closed unless they are torn, and without a backslash none of them is. -/
theorem selector_closed_of_parse (h : parse source = .ok s)
    (hselector : s.selector? id = some selector) :
    (({} : Scan).after selector.toList).Outside ∧
      (∀ item ∈ items selector, isClosed item.toList = true ↔ ¬ Torn item.toList) ∧
      ('\\' ∉ source.toList → ∀ item ∈ items selector, isClosed item.toList = true) := by
  have hclosed (item) (hitem : item ∈ items selector) := isClosed_iff_of_parse h hselector hitem
  refine ⟨outside_of_parse h hselector, hclosed, ?_⟩
  intro hsource item hitem
  rw [hclosed item hitem]
  intro htorn
  exact hsource (subset_of_parse h hselector (subset_of_mem_items hitem (mem_of_torn htorn)))

/-- `:is(a, b)/*(*/)),[c=")"] {}`. The comment is left out, and the second and the
third closing bracket count for nothing. -/
def bracketSheet : Sheet where
  nodes := #[⟨.root, none, [1]⟩, ⟨.rule ":is(a, b))),[c=\")\"]", some 0, []⟩]
  nonempty := by decide

theorem selector_closed_of_parse_bracketSheet :
    parse ":is(a, b)/*(*/)),[c=\")\"] \x7b\x7d" = .ok bracketSheet ∧
      bracketSheet.selector? 1 = some ":is(a, b))),[c=\")\"]" ∧
      (({} : Scan).after ":is(a, b))),[c=\")\"]".toList).Outside ∧
      '\\' ∉ ":is(a, b)/*(*/)),[c=\")\"] \x7b\x7d".toList ∧
      ":is(a, b)))" ∈ items ":is(a, b))),[c=\")\"]" ∧ isClosed ":is(a, b)))".toList = true := by
  have hparse : parse ":is(a, b)/*(*/)),[c=\")\"] \x7b\x7d" = .ok bracketSheet := by
    decide +kernel
  have hselector : bracketSheet.selector? 1 = some ":is(a, b))),[c=\")\"]" := by decide
  have hsource : '\\' ∉ ":is(a, b)/*(*/)),[c=\")\"] \x7b\x7d".toList := by decide +kernel
  have hitem : ":is(a, b)))" ∈ items ":is(a, b))),[c=\")\"]" := by decide +kernel
  obtain ⟨houtside, -, hclosed⟩ := selector_closed_of_parse hparse hselector
  exact ⟨hparse, hselector, houtside, hsource, hitem, hclosed hsource _ hitem⟩

end Unnest.Selector
