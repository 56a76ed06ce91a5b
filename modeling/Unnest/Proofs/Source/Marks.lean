import Unnest.Proofs.Source.Found
import Unnest.Proofs.Source.Stored

/-!
# Marks of a text

Storing a head takes blanks and comments from it, and maybe the mark of
importance. Slashes, braces and semicolons are left, save those in comments, so
they can be counted: a reader never finds more slashes than its text has.
-/

namespace Unnest

open Source Text

def countedMarks : List Char :=
  ['/', ';', '\x7b', '\x7d']

theorem isBlank_of_mem_countedMarks : ∀ c ∈ countedMarks, isBlank c = false := by
  simp only [countedMarks, List.forall_mem_cons]
  exact ⟨by decide, by decide, by decide, by decide, List.forall_mem_nil _⟩

theorem not_mem_importantMark : ∀ c ∈ countedMarks,
    c.toLower ∉ Declaration.importantMark ∧ c ∉ Declaration.importantMark := by
  simp only [countedMarks, List.forall_mem_cons]
  exact ⟨by decide, by decide, by decide, by decide, List.forall_mem_nil _⟩

theorem mem_countedMarks_of_isTerminator {c : Char} (h : Head.isTerminator c = true) :
    c ∈ countedMarks := by
  simp only [Head.isTerminator, Bool.or_eq_true, beq_iff_eq] at h
  rcases h with (rfl | rfl) | rfl <;> decide

/-! ## The marks of a head -/

namespace Content

/-- Whether the content is what is found at the front of `text`: behind its lead
a head with its marks is read, and no slash is lost up to `left`. -/
def HeadedBy (content : Content) (text left : List Char) : Prop :=
  ∃ input head rest, text = content.lead ++ input ∧ Head.read input = .ok (head, rest) ∧
    (∀ c ∈ countedMarks, content.head.count c = head.count c) ∧ rest.count '/' = left.count '/'

theorem count_head_rule {c : Char} (hc : c ∈ countedMarks) (text : List Char) :
    (rule (String.ofList (trim text))).head.count c = text.count c := by
  have hblank := isBlank_of_mem_countedMarks c hc
  rw [head, List.count_append, List.count_singleton, String.toList_ofList, count_trim hblank]
  simp [ne_of_isBlank (c := ' ') rfl hblank]

private theorem count_head_atRule {c : Char} (hc : c ∈ countedMarks) (name : String)
    (text : List Char) (hasBlock : Bool) :
    (atRule name (String.ofList (trim text)) hasBlock).head.count c = text.count c := by
  have hblank := isBlank_of_mem_countedMarks c hc
  have hspace : ¬ ' ' = c := ne_of_isBlank rfl hblank
  have hafter : (if hasBlock then [' '] else []).count c = 0 := by
    cases hasBlock <;> simp [hspace]
  rw [head, List.count_append, hafter, Nat.add_zero, ← count_trim hblank text]
  split
  · next hempty =>
      have hnil : trim text = [] := by simpa using congrArg String.toList hempty
      rw [hnil]
  · rw [List.count_cons_of_ne hspace, String.toList_ofList]

theorem headedBy_of_readAtRule {input left : List Char} {piece : Piece}
    (h : Piece.readAtRule input = .ok (piece, left)) :
    ∃ name params hasBlock, (piece = .opening (.atRule name params hasBlock) ∨
      piece = .leaf (.atRule name params hasBlock)) ∧
        (atRule name params hasBlock).HeadedBy ('@' :: input) left := by
  obtain ⟨name, params, rest, rfl, -, hread, hpiece⟩ := Piece.cases_of_readAtRule h
  have hinput : '@' :: input = '@' :: (String.ofList (input.takeWhile isNameChar)).toList ++
      input.dropWhile isNameChar := by simp
  rcases hpiece with ⟨rfl, rfl⟩ | ⟨rfl, rfl⟩
  · exact ⟨_, _, true, .inl rfl, _, params, _, hinput, hread,
      fun c hc => count_head_atRule hc _ _ _, List.count_cons_of_ne (by decide)⟩
  · exact ⟨_, _, false, .inr rfl, _, params, _, hinput, hread,
      fun c hc => count_head_atRule hc _ _ _, rfl⟩

private theorem headedBy_of_readStatement {nested : Bool} {input left : List Char} {piece : Piece}
    (h : Piece.readStatement nested input = .ok (piece, left)) :
    ∃ content, (piece = .opening content ∨ piece = .leaf content) ∧
      (∀ text, content ≠ .comment text) ∧ content.HeadedBy input left := by
  obtain ⟨head, rest, hread, hpiece⟩ := Piece.cases_of_readStatement h
  rcases hpiece with ⟨rfl, rfl⟩ | ⟨-, rfl, content, hdecl, rfl⟩
  · exact ⟨_, .inl rfl, by simp, input, head, _, rfl, hread, fun c hc => count_head_rule hc _,
      List.count_cons_of_ne (by decide)⟩
  · obtain ⟨before, after, value, important, rfl, -⟩ := Declaration.cases_of_read hdecl
    refine ⟨_, .inr rfl, by simp, input, head, _, rfl, hread, ?_, rfl⟩
    intro c hc
    obtain ⟨hlower, hmark⟩ := not_mem_importantMark c hc
    exact Declaration.count_headText (isBlank_of_mem_countedMarks c hc) hlower hmark hdecl

end Content

/-- What was read when the piece was found: a closing, a comment or a head. -/
theorem cases_marks_of_next {nested : Bool} {c : Char} {rest left : List Char} {piece : Piece}
    (h : Piece.next nested c rest = .ok (piece, left)) :
    (piece = .closing ∧ left = rest) ∨
      (∃ text, piece = .leaf (.comment (String.ofList (trim text))) ∧
        c :: rest = '/' :: '*' :: (text ++ '*' :: '/' :: left)) ∨
      ∃ content, (piece = .opening content ∨ piece = .leaf content) ∧
        (∀ text, content ≠ .comment text) ∧ content.HeadedBy (c :: rest) left := by
  rcases Piece.cases_of_next h with ⟨-, rfl, rfl⟩ | ⟨rfl, hread⟩ | ⟨body, rfl, rfl, hread⟩ |
    ⟨-, -, hread⟩
  · exact .inl ⟨rfl, rfl⟩
  · obtain ⟨name, params, hasBlock, hpiece, hheaded⟩ := Content.headedBy_of_readAtRule hread
    exact .inr (.inr ⟨_, hpiece, by simp, hheaded⟩)
  · obtain ⟨text, hcut, rfl⟩ := Piece.cases_of_readComment hread
    exact .inr (.inl ⟨text, rfl, by rw [cutComment_eq_append hcut]⟩)
  · exact .inr (.inr (Content.headedBy_of_readStatement hread))

/-! ## Slashes -/

namespace Content

def slashes : Content → Nat
  | comment text => text.toList.count '/' + 2
  | content => content.lead.count '/' + content.head.count '/'

theorem slashes_eq {content : Content} (h : ∀ text, content ≠ comment text) :
    content.slashes = content.lead.count '/' + content.head.count '/' := by
  cases content with
  | comment text => exact absurd rfl (h text)
  | _ => rfl

theorem count_line {content : Content} (h : ∀ text, content ≠ comment text) (rest : List Char) :
    (content.lead ++ (content.head ++ content.terminator :: rest)).count '/' =
      content.slashes + rest.count '/' := by
  rw [slashes_eq h, List.count_append, List.count_append,
    List.count_cons_of_ne (content.terminator_ne rfl), Nat.add_assoc]

theorem count_heading {content : Content} (h : content.opensBlock false = true)
    (rest : List Char) :
    (content.heading.toList ++ ' ' :: '\x7b' :: rest).count '/' =
      content.slashes + rest.count '/' := by
  rw [toList_heading h]
  apply count_line
  rintro text rfl
  cases h

theorem count_statement {content : Content} (h : content.opensBlock false = false)
    (hroot : content ≠ .root) (rest : List Char) :
    (content.statement.toList ++ rest).count '/' = content.slashes + rest.count '/' := by
  by_cases hcomment : ∀ text, content ≠ comment text
  · rw [toList_statement h hroot hcomment]
    exact count_line hcomment rest
  · push Not at hcomment
    obtain ⟨text, rfl⟩ := hcomment
    have hstatement : (comment text).statement.toList =
        '/' :: '*' :: ' ' :: (text.toList ++ [' ', '*', '/']) := by simp [statement]
    rw [hstatement, slashes]
    simp [List.count_append]
    omega

end Content

namespace Source

def Piece.slashes : Piece → Nat
  | opening content => content.slashes
  | leaf content => content.slashes
  | closing => 0

def slashes : List Piece → Nat
  | [] => 0
  | piece :: pieces => piece.slashes + slashes pieces

@[simp] theorem slashes_cons (piece : Piece) (pieces : List Piece) :
    slashes (piece :: pieces) = piece.slashes + slashes pieces := rfl

@[simp] theorem slashes_append (pieces pieces' : List Piece) :
    slashes (pieces ++ pieces') = slashes pieces + slashes pieces' := by
  induction pieces with
  | nil => exact (Nat.zero_add _).symm
  | cons piece pieces ih => rw [List.cons_append, slashes_cons, slashes_cons, ih, Nat.add_assoc]

/-- A piece has no more slashes than are taken from the text. -/
theorem slashes_of_next {nested : Bool} {c : Char} {rest left : List Char} {piece : Piece}
    (h : Piece.next nested c rest = .ok (piece, left)) :
    piece.slashes + left.count '/' ≤ (c :: rest).count '/' := by
  rcases cases_marks_of_next h with ⟨rfl, rfl⟩ | ⟨text, rfl, htext⟩ |
    ⟨content, hpiece, hcomment, input, head, rest', htext, hread, hcount, hleft⟩
  · rw [Piece.slashes, Nat.zero_add]
    exact List.count_le_count_cons
  · rw [htext, Piece.slashes, Content.slashes, String.toList_ofList, count_trim rfl]
    simp only [List.count_cons, List.count_append]
    simp
    omega
  · have hle : head.count '/' + rest'.count '/' ≤ input.count '/' := by
      rcases Head.eq_append_or_count_lt hread with ⟨-, rfl⟩ | hlt
      · rw [List.count_append]
      · exact Nat.le_of_lt hlt
    have hslashes : piece.slashes = content.slashes := by
      rcases hpiece with rfl | rfl <;> rfl
    rw [htext, hslashes, Content.slashes_eq hcomment, hcount '/' (by decide), ← hleft,
      List.count_append]
    omega

theorem slashes_of_outlineFrom {opened : List (List Char)} {input : List Char}
    {pieces : List Piece} (h : outlineFrom opened input = .ok pieces) :
    slashes pieces ≤ input.count '/' := by
  fun_induction outlineFrom opened input generalizing pieces with
  | case1 =>
      cases h
      exact Nat.zero_le _
  | case2 => cases h
  | case3 => cases h
  | case4 => cases h
  | case5 opened input c rest hskip piece left hnext pieces' hrest ih =>
      cases h
      have hinput : (c :: rest).count '/' ≤ input.count '/' := by
        rw [← hskip]
        exact (List.dropWhile_suffix isFiller).sublist.count_le '/'
      have hpiece := slashes_of_next hnext
      have hpieces := ih hrest
      rw [slashes_cons]
      omega

end Source

end Unnest
