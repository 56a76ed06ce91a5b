import Unnest.Proofs.Source.Parsed
import Unnest.Proofs.Source.Reads

/-!
# Open blocks

The reader remembers open blocks by the text behind their braces. Here they are
told from the pieces alone: a block is open if no closing among the pieces
behind its opening is its own. So the block that the reader holds for the
innermost is the one behind whose opening all others are closed again.
-/

namespace Unnest.Source

/-- Rows of pieces in which openings and closings belong together. -/
inductive Balanced : List Piece → Prop
  | nil : Balanced []
  | leaf (content : Content) : Balanced [.leaf content]
  | block (content : Content) {inner : List Piece} :
      Balanced inner → Balanced (.opening content :: (inner ++ [.closing]))
  | append {first second : List Piece} :
      Balanced first → Balanced second → Balanced (first ++ second)

/-- The pieces leave these blocks open, the innermost first, and the reader
stood in front of each block's text when it had read the opening. -/
inductive LeavesOpen (source : List Char) : List Piece → List (List Char) → Prop
  | none {pieces : List Piece} : Balanced pieces → LeavesOpen source pieces []
  | block {before inner : List Piece} {content : Content} {body : List Char}
      {outer : List (List Char)} :
      LeavesOpen source before outer →
        Reads source (before ++ [.opening content]) (body :: outer) body → Balanced inner →
          LeavesOpen source (before ++ .opening content :: inner) (body :: outer)

variable {source left : List Char} {pieces : List Piece} {opened : List (List Char)}

theorem LeavesOpen.append (h : LeavesOpen source pieces opened) {more : List Piece}
    (hmore : Balanced more) : LeavesOpen source (pieces ++ more) opened := by
  cases h with
  | none hpieces => exact .none (hpieces.append hmore)
  | block hbefore hreads hinner =>
      rw [List.append_assoc, List.cons_append]
      exact .block hbefore hreads (hinner.append hmore)

/-- A closing takes the innermost block off, with all that is in it. -/
theorem LeavesOpen.close {body : List Char} {outer : List (List Char)}
    (h : LeavesOpen source pieces (body :: outer)) :
    LeavesOpen source (pieces ++ [.closing]) outer := by
  cases h with
  | block hbefore _ hinner =>
      rw [List.append_assoc, List.cons_append]
      exact hbefore.append (.block _ hinner)

theorem Reads.leavesOpen (h : Reads source pieces opened left) :
    LeavesOpen source pieces opened := by
  induction h with
  | start => exact .none .nil
  | @step pieces opened input c rest piece left hreads hskip hnext ih =>
      cases piece with
      | opening content => exact .block ih (hreads.step hskip hnext) .nil
      | leaf content => exact ih.append (.leaf content)
      | closing =>
          -- at top level the reader refuses a closing
          have hfits := fits_of_next (isFiller_of_dropWhile hskip) hnext
          cases opened with
          | nil => cases hfits
          | cons body outer => exact ih.close

/-- The block with the text `body` is open at the end of the source, and all
blocks that were opened in it are closed. -/
def InnermostOpen (source body : List Char) : Prop :=
  ∃ before content inner outer left,
    Reads source (before ++ [.opening content]) (body :: outer) body ∧ Balanced inner ∧
      Reads source (before ++ .opening content :: inner) (body :: outer) left ∧
        ∀ c ∈ left, isFiller c = true

theorem Reads.innermostOpen {body : List Char} {outer : List (List Char)}
    (h : Reads source pieces (body :: outer) left) (hleft : left.dropWhile isFiller = []) :
    InnermostOpen source body := by
  cases h.leavesOpen with
  | @block before inner content _ _ _ hopening hinner =>
      exact ⟨before, content, inner, outer, left, hopening, hinner, h,
        List.dropWhile_eq_nil_iff.mp hleft⟩

end Unnest.Source
