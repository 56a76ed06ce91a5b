import Unnest.Proofs.Sheet.Layout
import Unnest.Proofs.Source.Build
import Unnest.Proofs.Source.Stored

/-!
# Reading a printed forest

If every content is stored as the reader would store it and every head reads
back, the outline of the printed text is the row of pieces of the forest, at
any depth and in front of any text.
-/

namespace Unnest

open Source

namespace Forest

def Fits (nested : Bool) : Forest → Prop
  | nil => True
  | node _ content below beside =>
      content.Stored ∧ (content.isDeclaration = true → nested = true) ∧
        (content.opensBlock false = false → below = nil) ∧ below.Fits true ∧ beside.Fits nested

theorem Fits.formed {nested : Bool} {forest : Forest} (h : forest.Fits nested) :
    forest.Formed := by
  induction forest generalizing nested with
  | nil => trivial
  | node id content below beside ihBelow ihBeside =>
      obtain ⟨hstored, -, hleaf, hbelow, hbeside⟩ := h
      refine ⟨?_, hleaf, ihBelow hbelow, ihBeside hbeside⟩
      rintro rfl
      exact hstored

theorem fits_mapIds {f : NodeId → NodeId} {nested : Bool} {forest : Forest} :
    (forest.mapIds f).Fits nested ↔ forest.Fits nested := by
  induction forest generalizing nested with
  | nil => rfl
  | node id content below beside ihBelow ihBeside =>
      have hnil : below.mapIds f = nil ↔ below = nil := by cases below <;> simp [mapIds]
      simp only [mapIds, Fits, hnil, ihBelow, ihBeside]

theorem isFiller_of_mem_indentation {depth : Nat} : ∀ c ∈ indentation depth, isFiller c = true := by
  intro c hc
  rw [List.eq_of_mem_replicate hc]
  rfl

theorem outlineFrom_closing (body : List Char) (opened : List (List Char))
    (rest : List Char) :
    outlineFrom (body :: opened) ('\x7d' :: '\n' :: rest) =
      (outlineFrom opened rest).map (.closing :: ·) := by
  have hnext : Piece.next (!(body :: opened).isEmpty) '\x7d' ('\n' :: rest) =
      .ok (.closing, '\n' :: rest) := rfl
  rw [outlineFrom_piece rfl hnext, Piece.openAfter, List.tail_cons, outlineFrom_filler rfl]

theorem outlineFrom_blockText {below : Forest} {opened : List (List Char)} {depth : Nat}
    (h : ∀ rest, outlineFrom opened (below.text (depth + 1) ++ rest) =
      (outlineFrom opened rest).map (below.pieces ++ ·)) (rest : List Char) :
    outlineFrom opened (blockText depth below ++ rest) =
      (outlineFrom opened rest).map (below.pieces ++ ·) := by
  rw [blockText]
  split
  · next hempty =>
      rw [eq_nil_of_roots_isEmpty hempty, List.nil_append]
      cases outlineFrom opened rest <;> rfl
  · rw [List.cons_append, outlineFrom_filler rfl, List.append_assoc, h,
      outlineFrom_fillers isFiller_of_mem_indentation]

theorem outlineFrom_text {forest : Forest} {opened : List (List Char)}
    (hfits : forest.Fits (!opened.isEmpty)) (hreads : forest.All fun _ c => c.ReadsBack)
    (depth : Nat) (rest : List Char) :
    outlineFrom opened (forest.text depth ++ rest) =
      (outlineFrom opened rest).map (forest.pieces ++ ·) := by
  induction forest generalizing opened depth rest with
  | nil =>
      rw [text_nil, List.nil_append]
      cases outlineFrom opened rest <;> rfl
  | node id content below beside ihBelow ihBeside =>
      obtain ⟨hstored, hnested, hleaf, hbelow, hbeside⟩ := hfits
      obtain ⟨hread, hreadBelow, hreadBeside⟩ := hreads
      have hrest := ihBeside hbeside hreadBeside depth rest
      cases hblock : content.opensBlock false with
      | false =>
          have hopened : content.isDeclaration = true → opened ≠ [] := by
            intro hdecl hnil
            simpa [hnil] using hnested hdecl
          rw [text_statement depth hblock, List.append_assoc, List.append_assoc,
            outlineFrom_fillers isFiller_of_mem_indentation,
            outlineFrom_statement hstored hread hblock hopened, List.cons_append,
            outlineFrom_filler rfl, hrest, pieces, if_neg (by simp [hblock])]
          cases outlineFrom opened rest <;> rfl
      | true =>
          have hbelow (body : List Char) : below.Fits (!(body :: opened).isEmpty) := hbelow
          have hinner (body : List Char) :=
            outlineFrom_blockText (ihBelow (hbelow body) hreadBelow (depth + 1))
          rw [text_block depth hblock, List.append_assoc, List.append_assoc, List.cons_append,
            List.cons_append, outlineFrom_fillers isFiller_of_mem_indentation,
            outlineFrom_heading hstored hread hblock, List.append_assoc, hinner _,
            List.cons_append, List.cons_append, outlineFrom_closing, hrest, pieces, if_pos hblock]
          cases outlineFrom opened rest <;> simp [Except.map]

theorem outline_text {forest : Forest} (hfits : forest.Fits false)
    (hreads : forest.All fun _ c => c.ReadsBack) :
    outline (forest.text 0) = .ok forest.pieces := by
  have hfits : forest.Fits (!([] : List (List Char)).isEmpty) := hfits
  have h := outlineFrom_text hfits hreads 0 []
  have hend : outlineFrom [] [] = .ok [] := by
    rw [outlineFrom.eq_def]
    rfl
  rw [List.append_nil, hend] at h
  simpa [Except.map, outline] using h

end Forest

/-! ## Nodes in their places -/

namespace Sheet

/-- Whether the node is as the reader would store it, in its place. -/
def StoredAt (s : Sheet) (id : NodeId) (content : Content) : Prop :=
  content.Stored ∧ (content.isDeclaration = true → s.parent? id ≠ some rootId)

theorem fits_of_storedAt {s : Sheet} (hs : s.WellFormed) {forest : Forest} {parent : NodeId}
    {nested : Bool} (h : forest.Mirrors s parent) (hnested : nested = false → parent = rootId)
    (hstored : forest.All s.StoredAt) : forest.Fits nested := by
  induction forest generalizing parent nested with
  | nil => trivial
  | node id content below beside ihBelow ihBeside =>
      obtain ⟨⟨hcontent, hplace⟩, hbelow, hbeside⟩ := hstored
      refine ⟨hcontent, ?_, ?_, ?_, ?_⟩
      · intro hdecl
        by_contra htop
        apply hplace hdecl
        rw [h.parent?_node, hnested (by simpa using htop)]
      · intro hleaf
        apply Forest.eq_nil_of_roots_isEmpty
        by_contra hne
        have hne : s.children id ≠ [] := by simpa [h.children_node] using hne
        have hcontainer := hs.isContainer h.content?_node hne
        cases content with
        | root => exact hcontent
        | rule selector => cases hleaf
        | atRule name params block =>
            have hblock := hs.hasBlock h.content?_node hne
            simp [Content.opensBlock, hblock] at hleaf
        | declaration property value important => cases hcontainer
        | comment text => cases hcontainer
      · exact ihBelow h.2.1 (by simp) hbelow
      · exact ihBeside h.2.2 hnested hbeside

theorem storedAt_of_fits {s : Sheet} (hs : s.Linked) {forest : Forest} {parent : NodeId}
    {nested : Bool} (h : forest.Mirrors s parent) (hnested : parent = rootId → nested = false)
    (hfits : forest.Fits nested) : forest.All s.StoredAt := by
  induction forest generalizing parent nested with
  | nil => trivial
  | node id content below beside ihBelow ihBeside =>
      obtain ⟨hstored, hplace, -, hbelow, hbeside⟩ := hfits
      refine ⟨⟨hstored, ?_⟩, ihBelow h.2.1 ?_ hbelow, ihBeside h.2.2 hnested hbeside⟩
      · intro hdecl hparent
        rw [h.parent?_node, Option.some.injEq] at hparent
        rw [hnested hparent] at hplace
        cases hplace hdecl
      · rintro rfl
        have hparent := h.parent?_node
        rw [hs.parent?_root] at hparent
        cases hparent

end Sheet

/-- A linked sheet is read back as its forest, numbered in document order. -/
theorem parse_print_of_holds {s : Sheet} (hs : s.Linked) {forest : Forest}
    (h : s.Holds forest) (hfits : forest.Fits false)
    (hreads : forest.All fun _ c => c.ReadsBack) :
    parse s.print = .ok (.ofPieces forest.pieces) := by
  rw [parse, hs.print_of_holds h hfits.formed, forest.outline_text hfits hreads]

end Unnest
