import Unnest.Proofs.Source.DeclarationText
import Unnest.Proofs.Source.Found
import Unnest.Proofs.Source.HeadText
import Unnest.Sheet.Print

/-!
# Reading back what is printed for a node

A node is printed as its `lead`, its `head` and a terminator. What the reader
stores of a node is `Stored`; for such a content it is enough that the head
`ReadsBack` by itself, and then the reader takes the node and nothing more from
any text that begins with it.
-/

namespace Unnest

open Source Text

namespace Content

def lead : Content → List Char
  | atRule name _ _ => '@' :: name.toList
  | _ => []

def head : Content → List Char
  | rule selector => selector.toList ++ [' ']
  | atRule _ params hasBlock =>
      (if params = "" then [] else ' ' :: params.toList) ++ if hasBlock then [' '] else []
  | declaration property value important =>
      Declaration.headText property.toList value.toList important
  | root | comment _ => []

def terminator (content : Content) : Char :=
  if content.opensBlock false then '\x7b' else ';'

/-- Whether the head is read as it stands, up to the terminator. -/
def ReadsBack (content : Content) : Prop :=
  Head.read (content.head ++ [content.terminator]) = .ok (content.head, [content.terminator])

instance (content : Content) : Decidable content.ReadsBack :=
  inferInstanceAs (Decidable (_ = _))

def Stored : Content → Prop
  | root => False
  | rule selector =>
      Trimmed selector.toList ∧ ∀ c ∈ selector.toList.head?, c ≠ '@' ∧ c ≠ ';'
  | atRule name params _ =>
      name.toList ≠ [] ∧ (∀ c ∈ name.toList, isNameChar c = true) ∧ Trimmed params.toList
  | declaration property value important =>
      property.toList ≠ [] ∧ Trimmed property.toList ∧
        (∀ c ∈ property.toList.head?, c ≠ '@' ∧ c ≠ ';') ∧
        Declaration.cutAtColon (property.toList ++ [':']) = some (property.toList, []) ∧
        Trimmed value.toList ∧ (important = true ∨ Declaration.isMarked value.toList = false)
  | comment text => Trimmed text.toList ∧ ¬ ['*', '/'] <:+: text.toList

theorem isTerminator_terminator (content : Content) :
    Head.isTerminator content.terminator = true := by
  unfold terminator
  split <;> rfl

theorem readsBack_iff {content : Content} :
    content.ReadsBack ↔ ({} : Head.State).run? content.head = some {} := by
  constructor
  · intro h
    obtain ⟨state, hrun, hend⟩ := Head.run?_of_readFrom rfl h
    rw [hend (List.cons_ne_nil _ _)] at hrun
    exact hrun
  · intro h
    exact Head.read_append_of_run? h content.isTerminator_terminator

theorem terminator_ne {c : Char} (h : Head.isTerminator c = false) (content : Content) :
    content.terminator ≠ c := by
  rintro rfl
  rw [isTerminator_terminator] at h
  cases h

theorem ReadsBack.read_append {content : Content} (h : content.ReadsBack) (rest : List Char) :
    Head.read (content.head ++ content.terminator :: rest) =
      .ok (content.head, content.terminator :: rest) :=
  Head.read_append_of_run? (readsBack_iff.mp h) content.isTerminator_terminator

/-! ## What is printed -/

theorem toList_heading {content : Content} (h : content.opensBlock false = true)
    (rest : List Char) :
    content.heading.toList ++ ' ' :: '\x7b' :: rest =
      content.lead ++ (content.head ++ content.terminator :: rest) := by
  cases content with
  | rule selector => simp [heading, lead, head, terminator, opensBlock]
  | atRule name params hasBlock =>
      have hblock : hasBlock = true := by simpa [opensBlock] using h
      by_cases hparams : params = "" <;>
        simp [heading, lead, head, terminator, opensBlock, hblock, hparams]
  | _ => cases h

theorem toList_statement {content : Content} (h : content.opensBlock false = false)
    (hroot : content ≠ .root) (hcomment : ∀ text, content ≠ .comment text) (rest : List Char) :
    content.statement.toList ++ rest =
      content.lead ++ (content.head ++ content.terminator :: rest) := by
  cases content with
  | root => exact absurd rfl hroot
  | rule selector => cases h
  | atRule name params hasBlock =>
      have hblock : hasBlock = false := by simpa [opensBlock] using h
      by_cases hparams : params = "" <;>
        simp [statement, heading, lead, head, terminator, opensBlock, hblock, hparams]
  | declaration property value important =>
      have hmark : (" !important").toList = ' ' :: Declaration.importantMark := rfl
      cases important <;>
        simp [statement, lead, head, terminator, opensBlock, Declaration.headText, hmark]
  | comment text => exact absurd rfl (hcomment text)

end Content

namespace Source

/-! ## One piece of an outline -/

theorem outlineFrom_filler {c : Char} (h : isFiller c = true) (opened : List (List Char))
    (rest : List Char) : outlineFrom opened (c :: rest) = outlineFrom opened rest := by
  rw [outlineFrom.eq_def, outlineFrom.eq_def opened rest, List.dropWhile_cons_of_pos h]

theorem outlineFrom_fillers {fillers : List Char} (h : ∀ c ∈ fillers, isFiller c = true)
    (opened : List (List Char)) (rest : List Char) :
    outlineFrom opened (fillers ++ rest) = outlineFrom opened rest := by
  induction fillers with
  | nil => rfl
  | cons c fillers ih =>
      rw [List.cons_append, outlineFrom_filler (h c (by simp)), ih fun d hd => h d (by simp [hd])]

theorem outlineFrom_piece {c : Char} {rest left : List Char} {piece : Piece}
    {opened : List (List Char)} (hc : isFiller c = false)
    (hnext : Piece.next (!opened.isEmpty) c rest = .ok (piece, left)) :
    outlineFrom opened (c :: rest) =
      (outlineFrom (piece.openAfter opened left) left).map (piece :: ·) := by
  rw [outlineFrom_cons hc, hnext]
  rfl

theorem ok_of_map_append {found : Except Fault (List Piece)} {pieces pieces' : List Piece}
    (h : found.map (pieces ++ ·) = .ok (pieces ++ pieces')) : found = .ok pieces' := by
  cases found with
  | error fault => cases h
  | ok pieces'' => rw [List.append_cancel_left (Except.ok.inj h)]

theorem ok_of_map_cons {found : Except Fault (List Piece)} {piece : Piece} {pieces : List Piece}
    (h : found.map (piece :: ·) = .ok (piece :: pieces)) : found = .ok pieces := by
  have h : found.map ([piece] ++ ·) = .ok ([piece] ++ pieces) := h
  exact ok_of_map_append h

theorem eq_of_map_cons {found : Except Fault (List Piece)} {piece piece' : Piece}
    {pieces : List Piece} (h : found.map (piece' :: ·) = .ok (piece :: pieces)) :
    piece' = piece := by
  cases found with
  | error fault => cases h
  | ok pieces' => exact (List.cons.inj (Except.ok.inj h)).1

/-! ## Comments -/

theorem cutComment_append {text rest : List Char} (h : ¬ ['*', '/'] <:+: text)
    (hrest : rest.head? ≠ some '/') :
    cutComment (text ++ rest) =
      (cutComment rest).map fun (body, after) => (text ++ body, after) := by
  induction text with
  | nil => simp
  | cons c text ih =>
      have hmark : ¬ (c = '*' ∧ (text ++ rest).head? = some '/') := by
        rintro ⟨rfl, hhead⟩
        cases text with
        | nil => exact hrest hhead
        | cons d text =>
            cases hhead
            exact h ⟨[], text, rfl⟩
      rw [List.cons_append, cutComment, if_neg hmark,
        ih fun hmem => h (hmem.trans (List.suffix_cons c text).isInfix), Option.map_map]
      rfl

theorem not_mark_infix_of_cutComment {input body after : List Char}
    (h : cutComment input = some (body, after)) : ¬ ['*', '/'] <:+: body := by
  induction input generalizing body with
  | nil => cases h
  | cons c rest ih =>
      rw [cutComment] at h
      split at h
      · cases h
        intro hmem
        simpa using List.IsInfix.length_le hmem
      · next hmark =>
          obtain ⟨⟨body', after'⟩, hcut, heq⟩ := Option.map_eq_some_iff.mp h
          cases heq
          intro hmem
          rcases List.infix_cons_iff.mp hmem with hstart | hmem
          · obtain ⟨rfl, tail, htail⟩ := List.cons_prefix_cons.mp hstart
            rw [cutComment_eq_append hcut, ← htail] at hmark
            simp at hmark
          · exact ih hcut hmem

theorem readComment_printed {text : List Char} (htrimmed : Trimmed text)
    (hmark : ¬ ['*', '/'] <:+: text) (rest : List Char) :
    Piece.readComment (' ' :: (text ++ ' ' :: '*' :: '/' :: rest)) =
      .ok (.leaf (.comment (String.ofList text)), rest) := by
  have hcut : cutComment (' ' :: (text ++ ' ' :: '*' :: '/' :: rest)) =
      some (' ' :: (text ++ [' ']), rest) := by
    rw [cutComment, if_neg (by simp), cutComment_append hmark (by simp)]
    simp [cutComment]
  have htrim := trim_append_of_blanks text isBlank_of_mem_space isBlank_of_mem_space
  rw [List.singleton_append, htrimmed.trim_eq] at htrim
  rw [Piece.readComment, hcut]
  simp [htrim]

/-! ## At-rules -/

theorem exists_not_nameChar (name params : String) (hasBlock : Bool) (rest : List Char) :
    ∃ c behind, (Content.atRule name params hasBlock).head ++
        (Content.atRule name params hasBlock).terminator :: rest = c :: behind ∧
      isNameChar c = false := by
  have hblank : isNameChar ' ' = false := by decide +kernel
  have hbrace : isNameChar '\x7b' = false := by decide +kernel
  have hsemicolon : isNameChar ';' = false := by decide +kernel
  by_cases hparams : params = "" <;> cases hasBlock <;>
    simp [Content.head, Content.terminator, Content.opensBlock, *]

private theorem trim_head_atRule {params : List Char} (h : Trimmed params) (hasBlock : Bool) :
    trim ((if params = [] then [] else ' ' :: params) ++ if hasBlock then [' '] else []) =
      params := by
  have hnone : ∀ c ∈ ([] : List Char), isBlank c = true := by simp
  have htrim (after : List Char) (hafter : ∀ c ∈ after, isBlank c = true) :
      trim ((if params = [] then [] else ' ' :: params) ++ after) = params := by
    split
    · next hempty =>
        subst hempty
        simpa using trim_append_of_blanks [] hnone hafter
    · have happend := trim_append_of_blanks params isBlank_of_mem_space hafter
      rwa [h.trim_eq] at happend
  cases hasBlock with
  | false => exact htrim [] hnone
  | true => exact htrim [' '] isBlank_of_mem_space

theorem readAtRule_printed {name params : String} {hasBlock : Bool}
    (hstored : (Content.atRule name params hasBlock).Stored)
    (h : (Content.atRule name params hasBlock).ReadsBack) (rest : List Char) :
    Piece.readAtRule (name.toList ++ ((Content.atRule name params hasBlock).head ++
        (Content.atRule name params hasBlock).terminator :: rest)) =
      .ok (if hasBlock then (.opening (.atRule name params hasBlock), rest)
        else (.leaf (.atRule name params hasBlock), ';' :: rest)) := by
  obtain ⟨hne, hname, htrimmed⟩ := hstored
  have hread := h.read_append rest
  obtain ⟨c, behind, hbehind, hc⟩ := exists_not_nameChar name params hasBlock rest
  have htrim : trim (Content.atRule name params hasBlock).head = params.toList := by
    have htrim := trim_head_atRule htrimmed hasBlock
    rwa [if_congr String.toList_eq_nil_iff rfl rfl] at htrim
  have htake : (name.toList ++ c :: behind).takeWhile isNameChar = name.toList := by
    rw [List.takeWhile_append_of_pos hname, List.takeWhile_cons_of_neg (by simp [hc]),
      List.append_nil]
  have hdrop : (name.toList ++ c :: behind).dropWhile isNameChar = c :: behind := by
    rw [List.dropWhile_append_of_pos hname, List.dropWhile_cons_of_neg (by simp [hc])]
  rw [hbehind] at hread ⊢
  rw [Piece.readAtRule]
  simp only [htake, hdrop, if_neg hne, hread]
  cases hasBlock with
  | true => simp [Content.terminator, Content.opensBlock, Piece.atRule, htrim]
  | false => simp [Content.terminator, Content.opensBlock, Piece.atRule, htrim]

/-! ## Rules and declarations -/

theorem next_printed {content : Content} (h : content.ReadsBack) {c : Char} {behind : List Char}
    (hhead : content.head = c :: behind) (hat : c ≠ '@') (nested : Bool) (rest : List Char) :
    Piece.next nested c (behind ++ content.terminator :: rest) =
      Piece.readStatement nested (content.head ++ content.terminator :: rest) := by
  have hrun := Content.readsBack_iff.mp h
  rw [hhead, Head.State.run?] at hrun
  have hterminator : (content.terminator :: rest).head? ≠ some '*' := by
    rw [List.head?_cons]
    exact fun heq => content.terminator_ne rfl (Option.some.inj heq)
  split at hrun
  · next htakes =>
      rw [← Head.State.takes_append fun hstar => absurd hstar hterminator] at htakes
      simp only [Head.State.takes, Bool.and_eq_true, Bool.not_eq_true', beq_self_eq_true,
        Bool.true_and] at htakes
      have hclosing : c ≠ '\x7d' := by
        rintro rfl
        cases htakes.2
      rw [Piece.next, if_neg hclosing, if_neg hat, if_neg (by simp [htakes.1]), hhead,
        List.cons_append]
  · cases hrun

theorem outlineFrom_rule {selector : String} (hstored : (Content.rule selector).Stored)
    (h : (Content.rule selector).ReadsBack) (opened : List (List Char)) (body : List Char) :
    outlineFrom opened ((Content.rule selector).head ++ '\x7b' :: body) =
      (outlineFrom (body :: opened) body).map (.opening (.rule selector) :: ·) := by
  obtain ⟨htrimmed, hfirst⟩ := hstored
  have htrim : trim (Content.rule selector).head = selector.toList := by
    have htrim := trim_append_of_blanks selector.toList (by simp : ∀ c ∈ [], isBlank c = true)
      isBlank_of_mem_space
    rwa [List.nil_append, htrimmed.trim_eq] at htrim
  have hread := h.read_append body
  cases hselector : selector.toList with
  | nil =>
      have hempty : selector = "" := String.toList_eq_nil_iff.mp hselector
      subst hempty
      have hnext : Piece.next (!opened.isEmpty) '\x7b' body =
          .ok (.opening (.rule ""), body) := by
        simp [Piece.next, Head.opensComment, Piece.readStatement, Head.read, Head.readFrom,
          Head.Scan.stops, Head.isTerminator]
      rw [show (Content.rule "").head = [' '] from rfl, List.singleton_append,
        outlineFrom_filler rfl, outlineFrom_piece rfl hnext]
      rfl
  | cons c behind =>
      have hhead : (Content.rule selector).head = c :: (behind ++ [' ']) := by
        simp [Content.head, hselector]
      obtain ⟨hat, hsemicolon⟩ := hfirst c (by simp [hselector])
      have hfiller : isFiller c = false := by
        simp [isFiller, htrimmed.1 c (by simp [hselector]), hsemicolon]
      have hnext : Piece.next (!opened.isEmpty) c ((behind ++ [' ']) ++ '\x7b' :: body) =
          .ok (.opening (.rule selector), body) := by
        refine (next_printed h hhead hat _ body).trans ?_
        rw [Piece.readStatement, hread]
        simp [Content.terminator, Content.opensBlock, htrim]
      rw [hhead, List.cons_append, outlineFrom_piece hfiller hnext]
      rfl

theorem outlineFrom_atRule {name params : String} {hasBlock : Bool}
    (hstored : (Content.atRule name params hasBlock).Stored)
    (h : (Content.atRule name params hasBlock).ReadsBack) (opened : List (List Char))
    (rest : List Char) :
    outlineFrom opened ('@' :: (name.toList ++ ((Content.atRule name params hasBlock).head ++
        (Content.atRule name params hasBlock).terminator :: rest))) =
      if hasBlock then
        (outlineFrom (rest :: opened) rest).map (.opening (.atRule name params hasBlock) :: ·)
      else (outlineFrom opened rest).map (.leaf (.atRule name params hasBlock) :: ·) := by
  have hread := readAtRule_printed hstored h rest
  generalize name.toList ++ ((Content.atRule name params hasBlock).head ++
    (Content.atRule name params hasBlock).terminator :: rest) = text at hread ⊢
  have hnext : Piece.next (!opened.isEmpty) '@' text = Piece.readAtRule text := rfl
  rw [hread] at hnext
  cases hasBlock with
  | true => exact outlineFrom_piece rfl hnext
  | false =>
      rw [outlineFrom_piece rfl hnext, Piece.openAfter, outlineFrom_filler rfl]
      rfl

theorem outlineFrom_declaration {property value : String} {important : Bool}
    (hstored : (Content.declaration property value important).Stored)
    (h : (Content.declaration property value important).ReadsBack) {opened : List (List Char)}
    (hopened : opened ≠ []) (rest : List Char) :
    outlineFrom opened ((Content.declaration property value important).head ++ ';' :: rest) =
      (outlineFrom opened rest).map (.leaf (.declaration property value important) :: ·) := by
  obtain ⟨hne, htrimmed, hfirst, hcut, hvalue, hmark⟩ := hstored
  have hread := h.read_append rest
  have hdeclaration := Declaration.read_headText hcut htrimmed hne hvalue hmark
  obtain ⟨c, behind, hproperty⟩ := List.exists_cons_of_ne_nil hne
  obtain ⟨hat, hsemicolon⟩ := hfirst c (by simp [hproperty])
  have hfiller : isFiller c = false := by
    simp [isFiller, htrimmed.1 c (by simp [hproperty]), hsemicolon]
  obtain ⟨behind', hhead⟩ : ∃ behind',
      (Content.declaration property value important).head = c :: behind' := by
    rw [Content.head, Declaration.headText, hproperty]
    exact ⟨_, rfl⟩
  have hnested : (!opened.isEmpty) = true := by simpa using hopened
  have hnext : Piece.next (!opened.isEmpty) c (behind' ++ ';' :: rest) =
      .ok (.leaf (.declaration property value important), ';' :: rest) := by
    refine (next_printed h hhead hat _ rest).trans ?_
    rw [Piece.readStatement, hread, hnested]
    simp [Content.terminator, Content.opensBlock, Content.head, hdeclaration]
  rw [hhead, List.cons_append, outlineFrom_piece hfiller hnext, Piece.openAfter,
    outlineFrom_filler rfl]

theorem outlineFrom_comment {text : String} (hstored : (Content.comment text).Stored)
    (opened : List (List Char)) (rest : List Char) :
    outlineFrom opened ((Content.comment text).statement.toList ++ rest) =
      (outlineFrom opened rest).map (.leaf (.comment text) :: ·) := by
  have hread := readComment_printed hstored.1 hstored.2 rest
  have hnext : Piece.next (!opened.isEmpty) '/'
      ('*' :: ' ' :: (text.toList ++ ' ' :: '*' :: '/' :: rest)) =
        .ok (.leaf (.comment text), rest) := by
    rw [String.ofList_toList] at hread
    exact hread
  have hstatement : (Content.comment text).statement.toList ++ rest =
      '/' :: '*' :: ' ' :: (text.toList ++ ' ' :: '*' :: '/' :: rest) := by
    simp [Content.statement]
  rw [hstatement, outlineFrom_piece rfl hnext, Piece.openAfter]

/-! ## Lines -/

theorem outlineFrom_heading {content : Content} (hstored : content.Stored) (h : content.ReadsBack)
    (hblock : content.opensBlock false = true) (opened : List (List Char)) (body : List Char) :
    outlineFrom opened (content.heading.toList ++ ' ' :: '\x7b' :: body) =
      (outlineFrom (body :: opened) body).map (.opening content :: ·) := by
  rw [Content.toList_heading hblock]
  cases content with
  | rule selector => exact outlineFrom_rule hstored h opened body
  | atRule name params hasBlock =>
      have hhas : hasBlock = true := by simpa [Content.opensBlock] using hblock
      exact (outlineFrom_atRule hstored h opened body).trans (if_pos hhas)
  | _ => cases hblock

theorem outlineFrom_statement {content : Content} (hstored : content.Stored)
    (h : content.ReadsBack) (hblock : content.opensBlock false = false)
    {opened : List (List Char)} (hopened : content.isDeclaration = true → opened ≠ [])
    (rest : List Char) :
    outlineFrom opened (content.statement.toList ++ rest) =
      (outlineFrom opened rest).map (.leaf content :: ·) := by
  cases content with
  | root => cases hstored
  | rule selector => cases hblock
  | atRule name params hasBlock =>
      have hhas : ¬ hasBlock = true := by simpa [Content.opensBlock] using hblock
      rw [Content.toList_statement hblock (by simp) (by simp)]
      exact (outlineFrom_atRule hstored h opened rest).trans (if_neg hhas)
  | declaration property value important =>
      rw [Content.toList_statement hblock (by simp) (by simp)]
      exact outlineFrom_declaration hstored h (hopened rfl) rest
  | comment text => exact outlineFrom_comment hstored opened rest

end Source

end Unnest
