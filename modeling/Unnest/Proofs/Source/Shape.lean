import Unnest.Proofs.Sheet.Attached
import Unnest.Proofs.Source.Reprint

/-!
# The shape of a parsed sheet

A parsed sheet has nothing damaged and nothing detached, its nodes are numbered
as they are walked, and each text in it is trimmed and free of the marks that
the reader takes away. The links follow from the forest that the sheet holds,
the texts from what the reader stores.
-/

namespace Unnest

open Source Text

/-- Whether the text ends in the mark of importance, in any case of letters. -/
def EndsInMark (text : List Char) : Prop :=
  ∃ before mark, text = before ++ mark ∧ mark.map Char.toLower = Declaration.importantMark

private theorem isMarked_of_endsInMark {text : List Char} (h : EndsInMark text) :
    Declaration.isMarked text = true := by
  obtain ⟨before, mark, rfl, hmark⟩ := h
  have hlength : mark.length = Declaration.importantMark.length := by
    rw [← hmark, List.length_map]
  have hdrop : (before ++ mark).length - Declaration.importantMark.length = before.length := by
    rw [List.length_append, hlength, Nat.add_sub_cancel]
  rw [Declaration.isMarked, hdrop, List.drop_left, hmark, beq_self_eq_true]

theorem not_endsInMark {text : List Char} (h : Declaration.isMarked text = false) :
    ¬ EndsInMark text := by
  intro hmark
  rw [isMarked_of_endsInMark hmark] at h
  cases h

/-- Whether the texts of a node are such as a parsed sheet has them. -/
def Content.Tidy : Content → Prop
  | root => True
  | rule selector => Trimmed selector.toList
  | atRule name params _ =>
      name ≠ "" ∧ (∀ c ∈ name.toList, isNameChar c = true) ∧ Trimmed params.toList
  | declaration property value important =>
      property ≠ "" ∧ Trimmed property.toList ∧ Trimmed value.toList ∧
        (important = false → ¬ EndsInMark value.toList)
  | comment text => Trimmed text.toList ∧ ¬ ['*', '/'] <:+: text.toList

theorem Content.Stored.tidy {content : Content} (h : content.Stored) : content.Tidy := by
  cases content with
  | root => trivial
  | rule selector => exact h.1
  | atRule name params block =>
      obtain ⟨hne, hname, hparams⟩ := h
      exact ⟨mt String.toList_eq_nil_iff.mpr hne, hname, hparams⟩
  | declaration property value important =>
      obtain ⟨hne, hproperty, -, -, hvalue, hmark⟩ := h
      refine ⟨mt String.toList_eq_nil_iff.mpr hne, hproperty, hvalue, ?_⟩
      intro himportant
      apply not_endsInMark
      exact hmark.resolve_left (by rw [himportant]; exact Bool.false_ne_true)
  | comment text => exact h

namespace Sheet

structure Shaped (s : Sheet) : Prop where
  validate : s.validate = .ok ()
  isAttached {id : NodeId} : id < s.size → s.isAttached id = true
  /-- Nodes are numbered in document order. -/
  walk : s.walk = List.range s.size
  /-- Declarations stand in blocks. -/
  not_declaration {id : NodeId} : id ∈ s.children rootId → s.isDeclaration id = false
  children_statement {id : NodeId} {name params : String} :
    s.content? id = some (.atRule name params false) → s.children id = []
  tidy {id : NodeId} {content : Content} : s.content? id = some content → content.Tidy

end Sheet

theorem walk_of_parse {source : String} {s : Sheet} (h : parse source = .ok s) :
    s.walk = List.range s.size := by
  obtain ⟨forest, -, -, hforest, -⟩ := exists_forest_of_parse h
  calc
    s.walk = rootId :: forest.ids :=
      (wellFormed_of_parse h).linked.walk_eq_of_holds hforest
    _ = s.ids := (ids_of_parse h hforest).symm
    _ = List.range s.size := rfl

theorem tidy_of_parse {source : String} {s : Sheet} (h : parse source = .ok s) {id : NodeId}
    {content : Content} (hcontent : s.content? id = some content) : content.Tidy := by
  by_cases hroot : id = rootId
  · rw [hroot, (wellFormed_of_parse h).content?_root, Option.some.injEq] at hcontent
    rw [← hcontent]
    trivial
  · exact (storedAt_of_parse h hroot hcontent).1.tidy

theorem not_declaration_of_parse {source : String} {s : Sheet} (h : parse source = .ok s)
    {id : NodeId} (hid : id ∈ s.children rootId) : s.isDeclaration id = false := by
  have hs := wellFormed_of_parse h
  have hparent : s.parent? id = some rootId := hs.mem_children_iff.mp hid
  have hne : id ≠ rootId := by
    rintro rfl
    rw [hs.parent?_root] at hparent
    cases hparent
  rw [Sheet.isDeclaration, Option.any_eq_false]
  intro content hcontent
  rw [Bool.eq_false_iff]
  intro hdecl
  exact (storedAt_of_parse h hne hcontent).2 hdecl hparent

private theorem children_eq_nil_of_parse {source : String} {s : Sheet} (h : parse source = .ok s)
    {id : NodeId} {name params : String}
    (hcontent : s.content? id = some (.atRule name params false)) : s.children id = [] := by
  by_contra hne
  cases (wellFormed_of_parse h).hasBlock hcontent hne

/-- Whatever is read, the sheet has the form of parsed sheets. -/
theorem shaped_of_parse {source : String} {s : Sheet} (h : parse source = .ok s) : s.Shaped := by
  have hlinked := (wellFormed_of_parse h).linked
  have hwalk := walk_of_parse h
  refine ⟨hlinked.consistent.validate_eq_ok, ?_, hwalk, not_declaration_of_parse h,
    children_eq_nil_of_parse h, tidy_of_parse h⟩
  intro id hid
  have hmem : id ∈ s.walk := by
    rw [hwalk]
    exact List.mem_range.mpr hid
  exact hlinked.isAttached_iff.mpr (hlinked.mem_walk.mp hmem)

/-- `/* x */`, then `@m y;` and `a { b: c !important; d: e; @n { f {} } }`. -/
def shapedSheet : Sheet where
  nodes := #[⟨.root, none, [1, 2, 3]⟩, ⟨.comment "x", some 0, []⟩,
    ⟨.atRule "m" "y" false, some 0, []⟩, ⟨.rule "a", some 0, [4, 5, 6]⟩,
    ⟨.declaration "b" "c" true, some 3, []⟩, ⟨.declaration "d" "e" false, some 3, []⟩,
    ⟨.atRule "n" "" true, some 3, [7]⟩, ⟨.rule "f", some 6, []⟩]
  nonempty := by decide

theorem shaped_of_parse_shapedSheet :
    parse "/* x */@m y; a \x7b b: c!IMPORTANT ; d :e;@n\x7bf \x7b\x7d\x7d \x7d" =
      .ok shapedSheet ∧ shapedSheet.Shaped := by
  have hparse :
      parse "/* x */@m y; a \x7b b: c!IMPORTANT ; d :e;@n\x7bf \x7b\x7d\x7d \x7d" =
        .ok shapedSheet := by
    decide +kernel
  exact ⟨hparse, shaped_of_parse hparse⟩

end Unnest
