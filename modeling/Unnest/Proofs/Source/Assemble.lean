import Unnest.Proofs.Sheet.Edit
import Unnest.Proofs.Source.Nesting

/-!
# Building with checked edits

`build` adds nodes without a look at their parents. `assemble` adds them with
the checked edit, and stops at the first that is refused. None is: what the
reader finds is never the root, and only containers are opened.
-/

namespace Unnest

open Source

namespace Sheet

def assemble (s : Sheet) (enclosing : List NodeId) : List Piece → Except EditError Sheet
  | [] => .ok s
  | .opening content :: pieces =>
      match s.append (enclosing.headD rootId) content with
      | .error e => .error e
      | .ok (id, t) => t.assemble (id :: enclosing) pieces
  | .leaf content :: pieces =>
      match s.append (enclosing.headD rootId) content with
      | .error e => .error e
      | .ok (_, t) => t.assemble enclosing pieces
  | .closing :: pieces => s.assemble enclosing.tail pieces

def HoldsChildren (s : Sheet) (enclosing : List NodeId) : Prop :=
  ∀ id ∈ rootId :: enclosing, ∃ content, s.content? id = some content ∧
    content.isContainer = true

end Sheet

def Source.Piece.Addable : Piece → Prop
  | opening content => content ≠ .root ∧ content.isContainer = true
  | leaf content => content ≠ .root
  | closing => True

namespace Sheet

variable {s : Sheet} {enclosing : List NodeId} {content : Content}

theorem HoldsChildren.exists_headD (h : s.HoldsChildren enclosing) :
    ∃ outer, s.content? (enclosing.headD rootId) = some outer ∧ outer.isContainer = true := by
  apply h
  cases enclosing with
  | nil => exact List.mem_singleton_self rootId
  | cons id outer => exact List.mem_cons_of_mem _ List.mem_cons_self

theorem append_of_holdsChildren (h : s.HoldsChildren enclosing) (hcontent : content ≠ .root) :
    s.append (enclosing.headD rootId) content =
      .ok (s.size, s.grow (enclosing.headD rootId) content) := by
  rw [append, if_neg hcontent, requireContainer_eq_ok_iff.mpr h.exists_headD]

theorem HoldsChildren.grow (h : s.HoldsChildren enclosing) (parent : NodeId)
    (content : Content) : (s.grow parent content).HoldsChildren enclosing := by
  intro id hid
  obtain ⟨old, hold, hcontainer⟩ := h id hid
  have hne : id ≠ s.size := Nat.ne_of_lt (lt_size_of_content? hold)
  have hpush : (s.push ⟨content, some parent, []⟩).content? id = some old := by
    rw [content?_push, if_neg hne, hold]
  rw [Sheet.grow, content?_enlist]
  split
  · exact ⟨old.withBlock, by rw [hpush]; rfl, by rwa [Content.isContainer_withBlock]⟩
  · exact ⟨old, hpush, hcontainer⟩

theorem HoldsChildren.open (h : s.HoldsChildren enclosing)
    (hcontainer : content.isContainer = true) :
    (s.grow (enclosing.headD rootId) content).HoldsChildren (s.size :: enclosing) := by
  obtain ⟨outer, houter, -⟩ := h.exists_headD
  have hnew : (s.grow (enclosing.headD rootId) content).content? s.size = some content := by
    rw [content?, get?_grow (lt_size_of_content? houter), if_pos rfl, Option.map_some]
  have hgrow := h.grow (enclosing.headD rootId) content
  intro id hid
  rcases List.mem_cons.mp hid with rfl | hid
  · exact hgrow _ List.mem_cons_self
  · rcases List.mem_cons.mp hid with rfl | hid
    · exact ⟨content, hnew, hcontainer⟩
    · exact hgrow id (List.mem_cons_of_mem _ hid)

theorem HoldsChildren.tail (h : s.HoldsChildren enclosing) :
    s.HoldsChildren enclosing.tail := by
  intro id hid
  rcases List.mem_cons.mp hid with rfl | hid
  · exact h _ List.mem_cons_self
  · exact h id (List.mem_cons_of_mem _ (List.mem_of_mem_tail hid))

theorem holdsChildren_empty : empty.HoldsChildren [] := by
  intro id hid
  rw [List.mem_singleton.mp hid]
  exact ⟨.root, rfl, rfl⟩

/-- No piece is refused, so that the checks change nothing. -/
theorem assemble_eq_build {pieces : List Piece} (h : s.HoldsChildren enclosing)
    (hpieces : ∀ piece ∈ pieces, piece.Addable) :
    s.assemble enclosing pieces = .ok (s.build enclosing pieces) := by
  induction pieces generalizing s enclosing with
  | nil => rfl
  | cons piece pieces ih =>
      obtain ⟨hpiece, hothers⟩ := List.forall_mem_cons.mp hpieces
      cases piece with
      | opening content =>
          rw [assemble, append_of_holdsChildren h hpiece.1, build]
          exact ih (h.open hpiece.2) hothers
      | leaf content =>
          rw [assemble, append_of_holdsChildren h hpiece, build]
          exact ih (h.grow _ content) hothers
      | closing =>
          rw [assemble, build]
          exact ih h.tail hothers

end Sheet

/-! ## Pieces that were read -/

namespace Source

private theorem Piece.Fits.addable {piece : Piece} {nested : Bool} (h : piece.Fits nested) :
    piece.Addable := by
  cases piece with
  | opening content =>
      obtain ⟨hstored, hblock⟩ := h
      refine ⟨?_, ?_⟩
      · rintro rfl
        exact hstored
      · cases content <;> first | rfl | cases hblock
  | leaf content =>
      rintro rfl
      exact h.1
  | closing => trivial

private theorem Reads.addable {source left : List Char} {pieces : List Piece}
    {opened : List (List Char)} (h : Reads source pieces opened left) :
    ∀ piece ∈ pieces, piece.Addable := by
  induction h with
  | start => simp
  | step _ hskip hnext ih =>
      refine List.forall_mem_append.mpr ⟨ih, ?_⟩
      intro piece hpiece
      rw [List.mem_singleton.mp hpiece]
      exact (fits_of_next (isFiller_of_dropWhile hskip) hnext).addable

/-- What is read, up to any place, can be added piece by piece. -/
theorem Reads.assemble_eq {source left : List Char} {pieces : List Piece}
    {opened : List (List Char)} (h : Reads source pieces opened left) :
    Sheet.empty.assemble [] pieces = .ok (.ofPieces pieces) :=
  Sheet.assemble_eq_build Sheet.holdsChildren_empty h.addable

end Source

end Unnest
