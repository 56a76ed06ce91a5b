import Unnest.Proofs.Selector.Chain
import Unnest.Proofs.Source.Reads
import Unnest.Proofs.Source.Reprint

/-!
# The contents of a parsed sheet

Each node of a parsed sheet but the root was read as a piece of the text. What
holds of all that the reader gives as one piece therefore holds of all contents.
-/

namespace Unnest

open Source

namespace Source

def Piece.content? : Piece → Option Content
  | opening content => some content
  | leaf content => some content
  | closing => none

/-- What holds of all that is read as one piece of the source, holds of all contents. -/
theorem Reads.forall_content {P : Content → Prop} {source left : List Char} {pieces : List Piece}
    {opened : List (List Char)}
    (hnext : ∀ {nested c rest piece left}, c :: rest <:+ source →
      Piece.next nested c rest = .ok (piece, left) →
        ∀ content, piece.content? = some content → P content)
    (h : Reads source pieces opened left) :
    ∀ piece ∈ pieces, ∀ content, piece.content? = some content → P content := by
  induction h with
  | start => simp
  | step hreads hskip hfound ih =>
      have hfront := (suffix_of_dropWhile hskip).trans hreads.inside.left
      refine List.forall_mem_append.mpr ⟨ih, fun piece hpiece => ?_⟩
      rw [List.mem_singleton.mp hpiece]
      exact hnext hfront hfound

theorem exists_head_of_rule {nested : Bool} {c : Char} {rest left : List Char} {piece : Piece}
    {selector : String} (h : Piece.next nested c rest = .ok (piece, left))
    (hrule : piece.content? = some (.rule selector)) :
    ∃ head, Head.read (c :: rest) = .ok (head, '\x7b' :: left) ∧
      selector = String.ofList (Text.trim head) := by
  rcases Piece.cases_of_next h with ⟨-, rfl, -⟩ | ⟨-, hread⟩ | ⟨body, -, -, hread⟩ | ⟨-, -, hread⟩
  · cases hrule
  · obtain ⟨name, params, behind, -, -, -, ⟨rfl, -⟩ | ⟨rfl, -⟩⟩ := Piece.cases_of_readAtRule hread
    · cases hrule
    · cases hrule
  · obtain ⟨text, -, rfl⟩ := Piece.cases_of_readComment hread
    cases hrule
  · obtain ⟨head, behind, hhead, hpiece⟩ := Piece.cases_of_readStatement hread
    rcases hpiece with ⟨rfl, rfl⟩ | ⟨-, -, content, hdecl, rfl⟩
    · cases hrule
      exact ⟨head, hhead, rfl⟩
    · obtain ⟨before, after, value, important, rfl, -⟩ := Declaration.cases_of_read hdecl
      cases hrule

end Source

private theorem Forest.all_of_pieces {P : Content → Prop} {forest : Forest}
    (hformed : forest.Formed)
    (h : ∀ piece ∈ forest.pieces, ∀ content, piece.content? = some content → P content) :
    forest.All fun _ content => P content := by
  induction forest with
  | nil => trivial
  | node id content below beside ihBelow ihBeside =>
      obtain ⟨-, hleaf, hbelow, hbeside⟩ := hformed
      rw [pieces] at h
      split at h
      · obtain ⟨hopening, hinner⟩ := List.forall_mem_cons.mp h
        obtain ⟨hinner, houter⟩ := List.forall_mem_append.mp hinner
        exact ⟨hopening content rfl, ihBelow hbelow hinner,
          ihBeside hbeside fun piece hpiece => houter piece (List.mem_cons_of_mem _ hpiece)⟩
      · next hopens =>
          obtain ⟨hcontent, houter⟩ := List.forall_mem_cons.mp h
          rw [hleaf (by simpa using hopens)]
          exact ⟨hcontent content rfl, trivial, ihBeside hbeside houter⟩

theorem forall_content_of_parse {P : Content → Prop} {source : String} (hroot : P .root)
    (hnext : ∀ {nested c rest piece left}, c :: rest <:+ source.toList →
      Piece.next nested c rest = .ok (piece, left) →
        ∀ content, piece.content? = some content → P content)
    {s : Sheet} (h : parse source = .ok s) :
    ∀ id content, s.content? id = some content → P content := by
  obtain ⟨forest, houtline, -, hforest, hfits⟩ := exists_forest_of_parse h
  obtain ⟨left, hreads, -⟩ := exists_reads_of_outline houtline
  rw [forall_content_iff_of_parse h hforest hroot]
  exact Forest.all_of_pieces hfits.formed (hreads.forall_content hnext)

/-- The text is a head of the source that ends in front of a block, trimmed. -/
def IsBlockHead (source : List Char) (text : String) : Prop :=
  ∃ input head left, input <:+ source ∧ Head.read input = .ok (head, '\x7b' :: left) ∧
    text = String.ofList (Text.trim head)

theorem isBlockHead_of_parse {source : String} {s : Sheet} (h : parse source = .ok s)
    {id : NodeId} {selector : String} (hselector : s.selector? id = some selector) :
    IsBlockHead source.toList selector := by
  refine forall_content_of_parse
    (P := fun content => ∀ selector, content = .rule selector → IsBlockHead source.toList selector)
    ?_ ?_ h id _ (Sheet.content?_of_selector? hselector) selector rfl
  · intro selector hroot
    cases hroot
  · rintro nested c rest piece left hfront hnext _ hpiece selector rfl
    obtain ⟨head, hread, hselector⟩ := exists_head_of_rule hnext hpiece
    exact ⟨_, head, left, hfront, hread, hselector⟩

end Unnest
