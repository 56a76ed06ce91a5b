import Unnest.Proofs.Sheet.Forest

/-!
# The text of a forest

Printing follows the forest that a sheet holds. `text` is what is printed for a
row of siblings, in the form in which a reader meets it.
-/

namespace Unnest

namespace Forest

def lines (depth : Nat) : Forest → List Line
  | nil => []
  | node id content below beside =>
      (if content.opensBlock false then
        if below.roots.isEmpty then [⟨depth, id, .emptyBlock content⟩]
        else ⟨depth, id, .opening content⟩ ::
          (below.lines (depth + 1) ++ [⟨depth, id, .closing⟩])
      else [⟨depth, id, .statement content⟩]) ++ beside.lines depth

def text (depth : Nat) (forest : Forest) : List Char :=
  (forest.lines depth).flatMap (·.text.toList)

def indentation (depth : Nat) : List Char :=
  List.replicate (2 * depth) ' '

def blockText (depth : Nat) (below : Forest) : List Char :=
  if below.roots.isEmpty then [] else '\n' :: (below.text (depth + 1) ++ indentation depth)

theorem eq_nil_of_roots_isEmpty {forest : Forest} (h : forest.roots.isEmpty = true) :
    forest = nil := by
  cases forest with
  | nil => rfl
  | node => simp [roots] at h

@[simp] theorem text_nil (depth : Nat) : nil.text depth = [] := rfl

@[simp] theorem toList_line_text (line : Line) :
    line.text.toList = indentation line.depth ++ (line.form.text.toList ++ ['\n']) := by
  simp [Line.text, Line.indent, indentation]

theorem text_statement {id : NodeId} {content : Content} {below beside : Forest} (depth : Nat)
    (h : content.opensBlock false = false) :
    (node id content below beside).text depth =
      indentation depth ++ (content.statement.toList ++ ('\n' :: beside.text depth)) := by
  simp [text, lines, h, Line.Form.text]

theorem text_block {id : NodeId} {content : Content} {below beside : Forest} (depth : Nat)
    (h : content.opensBlock false = true) :
    (node id content below beside).text depth =
      indentation depth ++ (content.heading.toList ++
        (' ' :: '\x7b' :: (blockText depth below ++ ('\x7d' :: '\n' :: beside.text depth)))) := by
  cases hempty : below.roots.isEmpty <;>
    simp [text, lines, h, hempty, Line.Form.text, blockText]

end Forest

namespace Sheet

private theorem firstForm?_of_mirrors {s : Sheet} {id parent : NodeId} {content : Content}
    {below beside : Forest} (h : (Forest.node id content below beside).Mirrors s parent)
    (hformed : (Forest.node id content below beside).Formed) :
    s.firstForm? id =
      some (if content.opensBlock false then
        if below.roots.isEmpty then .emptyBlock content else .opening content
      else .statement content) := by
  have hblock : content.opensBlock (!below.roots.isEmpty) = content.opensBlock false := by
    cases hopens : content.opensBlock false with
    | false =>
        rw [hformed.2.1 hopens]
        exact hopens
    | true =>
        cases content with
        | atRule name params hasBlock => simp_all [Content.opensBlock]
        | _ => simp_all [Content.opensBlock]
  have hroot := hformed.1
  rw [firstForm?, h.content?_node, h.children_node]
  cases content with
  | root => exact absurd rfl hroot
  | _ =>
      simp only [hblock]
      split <;> rfl

private theorem linesFrom_of_mirrors {s : Sheet} {forest : Forest} {parent : NodeId}
    {fresh : List NodeId} (h : forest.Mirrors s parent) (hformed : forest.Formed)
    (hnodup : forest.ids.Nodup) (hfresh : forest.ids ⊆ fresh) (depth : Nat) (todo : List Todo) :
    s.linesFrom fresh (forest.roots.map (Todo.node · depth) ++ todo) =
      forest.lines depth ++ s.linesFrom (fresh.diff forest.ids) todo := by
  induction forest generalizing parent fresh depth todo with
  | nil => rfl
  | node id content below beside ihBelow ihBeside =>
      have hfirst := firstForm?_of_mirrors h hformed
      obtain ⟨hid, ⟨hbelow, hbelowFresh⟩, hbeside, hbesideFresh⟩ :=
        Forest.fresh_of_node hnodup hfresh
      have hrest := ihBeside h.2.2 hformed.2.2.2 hbeside hbesideFresh depth todo
      rw [Forest.roots, List.map_cons, List.cons_append, linesFrom, if_pos hid, hfirst,
        Forest.ids, List.diff_cons, List.diff_append, Forest.lines]
      cases hopens : content.opensBlock false with
      | false =>
          have hnil := hformed.2.1 hopens
          subst hnil
          simpa [inside, Forest.ids] using hrest
      | true =>
          cases hempty : below.roots.isEmpty with
          | true =>
              have hnil := Forest.eq_nil_of_roots_isEmpty hempty
              subst hnil
              simpa [inside, Forest.ids] using hrest
          | false =>
              have hinner := ihBelow h.2.1 hformed.2.2.1 hbelow hbelowFresh (depth + 1)
                (.close id depth :: (beside.roots.map (Todo.node · depth) ++ todo))
              rw [linesFrom, hrest] at hinner
              simpa [inside, h.children_node] using hinner

/-- A linked sheet is printed along the forest that it holds. -/
theorem Linked.print_of_holds {s : Sheet} (h : s.Linked) {forest : Forest}
    (hforest : s.Holds forest) (hformed : forest.Formed) :
    s.print.toList = forest.text 0 := by
  have hfresh : forest.ids ⊆ s.ids := by
    intro id hid
    exact mem_ids.mpr (h.lt_size ((h.mem_ids_of_holds hforest).mp hid).1)
  have hlines := linesFrom_of_mirrors hforest.mirrors hformed (h.nodup_ids_of_holds hforest)
    hfresh 0 []
  rw [print, lines, hforest.children_root]
  simp only [List.append_nil, linesFrom] at hlines
  simp [hlines, Forest.text, List.flatMap_map]

end Sheet

end Unnest
