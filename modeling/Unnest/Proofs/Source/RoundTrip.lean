import Unnest.Proofs.Source.Reading

/-!
# Printing and parsing

Parsing undoes printing for a well-formed sheet whose attached texts are
`Printable`: what comes back is the attached part, renumbered in document order.
-/

namespace Unnest

open Source Text

/-! ## Printable texts -/

/-- A text that is read as a head just as it stands. The scan is at its start
again behind it: outside brackets, strings and escapes. -/
structure Clean (text : List Char) : Prop where
  trimmed : Trimmed text
  read : Head.read text = .ok (text, [])
  after : ({} : Head.Scan).after text = {}

def Content.Printable : Content → Prop
  | root => False
  | rule selector => Clean selector.toList ∧ selector.toList.head? ≠ some '@'
  | atRule name params _ =>
      name ≠ "" ∧ name.toList.all isNameChar = true ∧ Clean params.toList
  | declaration property value important =>
      property ≠ "" ∧ Clean property.toList ∧ property.toList.head? ≠ some '@' ∧
        Declaration.cutAtColon (property.toList ++ [':']) = some (property.toList, []) ∧
        Clean value.toList ∧ (important = true ∨ Declaration.isMarked value.toList = false)
  | comment text => Trimmed text.toList ∧ ¬ ['*', '/'] <:+: text.toList

instance (text : List Char) : Decidable (Clean text) :=
  decidable_of_iff (Trimmed text ∧ Head.read text = .ok (text, []) ∧
    ({} : Head.Scan).after text = {}) ⟨fun ⟨a, b, c⟩ => ⟨a, b, c⟩, fun ⟨a, b, c⟩ => ⟨a, b, c⟩⟩

instance : DecidablePred Content.Printable
  | .root => .isFalse id
  | .rule _ => inferInstanceAs (Decidable (_ ∧ _))
  | .atRule .. => inferInstanceAs (Decidable (_ ∧ _))
  | .declaration .. => inferInstanceAs (Decidable (_ ∧ _))
  | .comment _ => inferInstanceAs (Decidable (_ ∧ _))

theorem Clean.run? {text : List Char} (h : Clean text) :
    ({} : Head.State).run? text = some {} := by
  have hread := h.read
  rw [Head.read] at hread
  conv at hread => lhs; rw [← List.append_nil text]
  obtain ⟨state, hrun, -⟩ := Head.run?_of_readFrom rfl hread
  have hstate := Head.after_of_run? rfl hrun
  rw [h.after] at hstate
  rw [← hstate] at hrun
  exact hrun

private theorem Clean.head?_ne_semicolon {text : List Char} (h : Clean text) :
    ∀ c ∈ text.head?, c ≠ ';' := by
  rintro c hc rfl
  cases text with
  | nil => cases hc
  | cons c rest =>
      cases hc
      have hrun := h.run?
      rw [Head.State.run?, if_neg (by simp [Head.State.takes, Head.isTerminator])] at hrun
      cases hrun

namespace Content.Printable

theorem stored {content : Content} (h : content.Printable) : content.Stored := by
  cases content with
  | root => exact h
  | rule selector =>
      obtain ⟨hclean, hat⟩ := h
      refine ⟨hclean.trimmed, fun c hc => ⟨?_, hclean.head?_ne_semicolon c hc⟩⟩
      rintro rfl
      exact hat hc
  | atRule name params hasBlock =>
      obtain ⟨hne, hname, hclean⟩ := h
      exact ⟨fun hnil => hne (String.toList_eq_nil_iff.mp hnil), List.all_eq_true.mp hname,
        hclean.trimmed⟩
  | declaration property value important =>
      obtain ⟨hne, hclean, hat, hcut, hvalue, hmark⟩ := h
      refine ⟨fun hnil => hne (String.toList_eq_nil_iff.mp hnil), hclean.trimmed,
        fun c hc => ⟨?_, hclean.head?_ne_semicolon c hc⟩, hcut, hvalue.trimmed, hmark⟩
      rintro rfl
      exact hat hc
  | comment text => exact h

private theorem run?_append_blank {text : List Char} (h : Clean text) :
    ({} : Head.State).run? (text ++ [' ']) = some {} := by
  rw [Head.State.run?_append (by simp), h.run?]
  rfl

theorem readsBack {content : Content} (h : content.Printable) : content.ReadsBack := by
  rw [Content.readsBack_iff]
  cases content with
  | root => rfl
  | rule selector => exact run?_append_blank h.1
  | atRule name params hasBlock =>
      have hparams := h.2.2
      have hblank (rest : List Char) :
          ({} : Head.State).run? (' ' :: rest) = ({} : Head.State).run? rest := rfl
      rw [Content.head]
      cases hasBlock <;> by_cases hempty : params = ""
      · rw [if_pos hempty]
        rfl
      · rw [if_neg hempty, if_neg Bool.false_ne_true, List.append_nil, hblank]
        exact hparams.run?
      · rw [if_pos hempty]
        rfl
      · rw [if_neg hempty, if_pos rfl, List.cons_append, hblank]
        exact run?_append_blank hparams
  | declaration property value important =>
      obtain ⟨-, hproperty, -, -, hvalue, -⟩ := h
      have hmark : ({} : Head.State).run?
          (if important then ' ' :: Declaration.importantMark else []) = some {} := by
        cases important <;> rfl
      have hhead : (if important then ' ' :: Declaration.importantMark else []).head? ≠
          some '*' := by
        cases important <;> simp
      have hafter : ({} : Head.State).run? (':' :: ' ' :: (value.toList ++
          if important then ' ' :: Declaration.importantMark else [])) = some {} := by
        have hrun : ({} : Head.State).run? (value.toList ++ _) = _ := Head.State.run?_append hhead
        rw [hvalue.run?] at hrun
        exact hrun.trans hmark
      rw [Content.head, Declaration.headText, Head.State.run?_append (by simp), hproperty.run?]
      exact hafter
  | comment text => rfl

end Content.Printable

namespace Sheet

/-- Whether the node can be printed and read again in its place. -/
def PrintableAt (s : Sheet) (id : NodeId) (content : Content) : Prop :=
  content.Printable ∧ (content.isDeclaration = true → s.parent? id ≠ some rootId)

instance (s : Sheet) (id : NodeId) (content : Content) : Decidable (s.PrintableAt id content) :=
  inferInstanceAs (Decidable (_ ∧ _))

/-- Whether all attached nodes can. That an at-rule with nodes in it has a block
is part of being well-formed. -/
def Printable (s : Sheet) : Prop :=
  ∀ id content, s.isAttached id = true → id ≠ rootId → s.content? id = some content →
    s.PrintableAt id content

theorem printable_iff_all {s : Sheet} (hs : s.Linked) {forest : Forest} (h : s.Holds forest) :
    s.Printable ↔ forest.All s.PrintableAt := by
  rw [h.mirrors.all_iff]
  constructor
  · intro hprintable id hid content hcontent
    obtain ⟨hbelow, hne⟩ := (hs.mem_ids_of_holds h).mp hid
    exact hprintable id content (hs.isAttached_iff.mpr hbelow) hne hcontent
  · intro hall id content hattached hne hcontent
    have hid := (hs.mem_ids_of_holds h).mpr ⟨hs.isAttached_iff.mp hattached, hne⟩
    exact hall id hid content hcontent

/-- The sheet `t` is what is attached of `s`, with each id replaced by its place
in the walk. -/
structure Renumbered (s t : Sheet) : Prop where
  size : t.size = s.walk.length
  content? {i : Nat} {id : NodeId} : s.walk[i]? = some id → t.content? i = s.content? id
  parent? {i : Nat} {id : NodeId} : s.walk[i]? = some id →
    t.parent? i = (s.parent? id).map s.walk.idxOf
  children {i : Nat} {id : NodeId} : s.walk[i]? = some id →
    t.children i = (s.children id).map s.walk.idxOf

/-! ## Renumbering -/

theorem renumbered_of_mapIds {s t : Sheet} {f : NodeId → NodeId} {forest : Forest}
    {parent : NodeId} (h : forest.Mirrors s parent)
    (h' : (forest.mapIds f).Mirrors t (f parent)) {id : NodeId} (hid : id ∈ forest.ids) :
    t.content? (f id) = s.content? id ∧ t.parent? (f id) = (s.parent? id).map f ∧
      t.children (f id) = (s.children id).map f := by
  induction forest generalizing parent with
  | nil => cases hid
  | node first content below beside ihBelow ihBeside =>
      simp only [Forest.ids, List.mem_cons, List.mem_append] at hid
      rcases hid with rfl | hid | hid
      · rw [h.content?_node, h.parent?_node, h.children_node, h'.content?_node, h'.parent?_node,
          h'.children_node, Forest.roots_mapIds]
        exact ⟨rfl, rfl, rfl⟩
      · exact ihBelow h.2.1 h'.2.1 hid
      · exact ihBeside h.2.2 h'.2.2 hid

/-- What is built from the pieces of a sheet's forest is the sheet renumbered. -/
theorem renumbered_ofPieces {s : Sheet} (hs : s.Linked) {forest : Forest} (h : s.Holds forest)
    (hformed : forest.Formed) : s.Renumbered (ofPieces forest.pieces) := by
  have hwalk := hs.walk_eq_of_holds h
  have hnodup := s.nodup_walk
  have hroot : s.walk.idxOf rootId = rootId := by
    rw [hwalk, List.idxOf_cons_self]
    rfl
  have hnumber : forest.number 1 = forest.mapIds s.walk.idxOf := by
    rw [Forest.number_eq_mapIds (hs.nodup_ids_of_holds h)]
    apply Forest.mapIds_congr
    intro id hid
    have hne : rootId ≠ id := ((hs.mem_ids_of_holds h).mp hid).2.symm
    rw [hwalk, List.idxOf_cons_ne _ hne, Nat.add_comm]
  have hholds := holds_ofPieces hformed
  rw [hnumber] at hholds
  have hmirrors := hholds.mirrors
  rw [← hroot] at hmirrors
  -- The place of each node in the walk, and what is found there.
  have hslot {i : Nat} {id : NodeId} (hi : s.walk[i]? = some id) :
      (ofPieces forest.pieces).content? i = s.content? id ∧
        (ofPieces forest.pieces).parent? i = (s.parent? id).map s.walk.idxOf ∧
          (ofPieces forest.pieces).children i = (s.children id).map s.walk.idxOf := by
    obtain ⟨hlt, hget⟩ := List.getElem?_eq_some_iff.mp hi
    have hplace : i = s.walk.idxOf id := by rw [← hget, hnodup.idxOf_getElem i hlt]
    have hid : id ∈ rootId :: forest.ids := by
      rw [← hwalk]
      exact List.mem_of_getElem? hi
    rw [hplace]
    rcases List.mem_cons.mp hid with rfl | hid
    · rw [hroot, h.children_root, hholds.children_root, Forest.roots_mapIds, content?, content?,
        parent?, parent?, h.root, hholds.root]
      exact ⟨rfl, rfl, rfl⟩
    · exact renumbered_of_mapIds (f := fun id => s.walk.idxOf id) h.mirrors hmirrors hid
  refine ⟨?_, fun hi => (hslot hi).1, fun hi => (hslot hi).2.1, fun hi => (hslot hi).2.2⟩
  rw [size_ofPieces hformed, hwalk, List.length_cons, Forest.length_ids]

private theorem mirrors_mapIds {s t : Sheet} {f : NodeId → NodeId} {forest : Forest}
    {parent : NodeId} (h : forest.Mirrors s parent)
    (hslot : ∀ id ∈ forest.ids, t.content? (f id) = s.content? id ∧
      t.parent? (f id) = (s.parent? id).map f ∧ t.children (f id) = (s.children id).map f) :
    (forest.mapIds f).Mirrors t (f parent) := by
  induction forest generalizing parent with
  | nil => trivial
  | node id content below beside ihBelow ihBeside =>
      simp only [Forest.ids, List.mem_cons, List.mem_append] at hslot
      obtain ⟨hcontent, hparent, hchildren⟩ := hslot id (.inl rfl)
      rw [h.content?_node] at hcontent
      refine ⟨?_, ihBelow h.2.1 ?_, ihBeside h.2.2 ?_⟩
      · rw [get?_eq_some_of_content? hcontent, hparent, hchildren, h.parent?_node,
          h.children_node, Forest.roots_mapIds]
        rfl
      · exact fun id hid => hslot id (.inr (.inl hid))
      · exact fun id hid => hslot id (.inr (.inr hid))

theorem Renumbered.holds {s t : Sheet} (h : s.Renumbered t) (hs : s.Linked) {forest : Forest}
    (hforest : s.Holds forest) : t.Holds (forest.mapIds s.walk.idxOf) := by
  have hwalk := hs.walk_eq_of_holds hforest
  have hslot {id : NodeId} (hid : id ∈ rootId :: forest.ids) :
      s.walk[s.walk.idxOf id]? = some id := by
    rw [← hwalk] at hid
    rw [List.getElem?_eq_getElem (List.idxOf_lt_length_iff.mpr hid), List.getElem_idxOf]
  have hroot : s.walk.idxOf rootId = rootId := by
    rw [hwalk, List.idxOf_cons_self]
    rfl
  have hfirst := hslot List.mem_cons_self
  rw [hroot] at hfirst
  constructor
  · have hcontent : t.content? rootId = some .root := by
      rw [h.content? hfirst, hs.content?_root]
    rw [get?_eq_some_of_content? hcontent, h.parent? hfirst, h.children hfirst, hs.parent?_root,
      hforest.children_root, Forest.roots_mapIds]
    rfl
  · have hmirrors := mirrors_mapIds hforest.mirrors (f := fun id => s.walk.idxOf id)
      fun id hid =>
        have hid := hslot (List.mem_cons_of_mem _ hid)
        ⟨h.content? hid, h.parent? hid, h.children hid⟩
    rw [hroot] at hmirrors
    exact hmirrors

/-! ## The round trip -/

private theorem fits_of_printable {s : Sheet} (hs : s.WellFormed) {forest : Forest}
    {parent : NodeId} {nested : Bool} (h : forest.Mirrors s parent)
    (hnested : nested = false → parent = rootId) (hprintable : forest.All s.PrintableAt) : forest.Fits nested :=
  fits_of_storedAt hs h hnested (hprintable.imp fun _ _ ⟨hcontent, hplace⟩ =>
    ⟨hcontent.stored, hplace⟩)

end Sheet

/-- Parsing what was printed gives the attached nodes in document order. -/
theorem parse_print {s : Sheet} (hs : s.WellFormed) (hprintable : s.Printable) :
    ∃ t, parse s.print = .ok t ∧ s.Renumbered t := by
  have hlinked := hs.linked
  obtain ⟨forest, hforest⟩ := hlinked.exists_holds
  have hall := (Sheet.printable_iff_all hlinked hforest).mp hprintable
  have hfits : forest.Fits false :=
    Sheet.fits_of_printable hs hforest.mirrors (fun _ => rfl) hall
  have hreads : forest.All fun _ content => content.ReadsBack :=
    hall.imp fun _ _ h => h.1.readsBack
  exact ⟨_, parse_print_of_holds hlinked hforest hfits hreads,
    Sheet.renumbered_ofPieces hlinked hforest hfits.formed⟩

/-- `/* x */`, then `a { @m y { b:c { z: "\x7b" !important; } } }`, not numbered
in document order. -/
def mixedForest : Forest :=
  .node 5 (.comment "x") .nil
    (.node 1 (.rule "a") (.node 4 (.atRule "m" "y" true)
      (.node 2 (.rule "b:c") (.node 3 (.declaration "z" "\"\x7b\"" true) .nil .nil) .nil)
      .nil) .nil)

def mixedSheet : Sheet where
  nodes := #[⟨.root, none, [5, 1]⟩, ⟨.rule "a", some 0, [4]⟩, ⟨.rule "b:c", some 4, [3]⟩,
    ⟨.declaration "z" "\"\x7b\"" true, some 2, []⟩, ⟨.atRule "m" "y" true, some 1, [2]⟩,
    ⟨.comment "x", some 0, []⟩]
  nonempty := by decide

theorem parse_print_mixedSheet :
    mixedSheet.WellFormed ∧ mixedSheet.Printable ∧
      ∃ t, parse mixedSheet.print = .ok t ∧ mixedSheet.Renumbered t := by
  have hholds : mixedSheet.Holds mixedForest := by
    refine ⟨rfl, ?_⟩
    simp [mixedForest, Forest.Mirrors, Forest.roots, mixedSheet, Sheet.get?, rootId]
  have hformed : mixedForest.Formed := by
    simp [mixedForest, Forest.Formed, Content.opensBlock]
  have hs : mixedSheet.WellFormed :=
    Sheet.wellFormed_of_holds hholds hformed (by decide) (by decide)
  have hprintable : mixedSheet.Printable :=
    (Sheet.printable_iff_all hs.linked hholds).mpr (by decide +kernel)
  exact ⟨hs, hprintable, parse_print hs hprintable⟩

end Unnest
