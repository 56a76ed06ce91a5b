import Unnest.Source.Comment
import Unnest.Source.Declaration
import Unnest.Source.Head
import Unnest.Text.NameChar

/-!
# Pieces

A stylesheet's text is a row of pieces: openings of blocks, nodes without a
block, and closings. `next` reads the piece at the front of a text. It needs to
know of what is around only whether some block is open, since at top level
there are neither declarations nor closings.
-/

namespace Unnest.Source

open Text

inductive Piece where
  /-- A node with a block, up to the opening brace. -/
  | opening (content : Content)
  /-- A node without a block. -/
  | leaf (content : Content)
  | closing
deriving DecidableEq

namespace Piece

def readComment (body : List Char) : Except Fault (Piece × List Char) :=
  match cutComment body with
  | none => .error ⟨.unclosedComment, '/' :: '*' :: body⟩
  | some (text, rest) => .ok (.leaf (.comment (String.ofList (trim text))), rest)

def atRule (name params : List Char) : List Char → Piece × List Char
  | '{' :: body =>
      (.opening (.atRule (String.ofList name) (String.ofList (trim params)) true), body)
  | rest => (.leaf (.atRule (String.ofList name) (String.ofList (trim params)) false), rest)

def readAtRule (input : List Char) : Except Fault (Piece × List Char) :=
  let name := input.takeWhile isNameChar
  if name = [] then .error ⟨.atRuleWithoutName, '@' :: input⟩
  else
    match Head.read (input.dropWhile isNameChar) with
    | .error fault => .error fault
    | .ok (params, rest) => .ok (atRule name params rest)

def readStatement (nested : Bool) (input : List Char) : Except Fault (Piece × List Char) :=
  match Head.read input with
  | .error fault => .error fault
  | .ok (head, '{' :: body) => .ok (.opening (.rule (String.ofList (trim head))), body)
  | .ok (head, rest) =>
      if nested then
        match Declaration.read head with
        | some content => .ok (.leaf content, rest)
        | none => .error ⟨.unknownWord, input⟩
      else .error ⟨.unknownWord, input⟩

/-- The piece that `c`, in front of `rest`, begins, and the text behind it.
What ends a node without a block is left there. -/
def next (nested : Bool) (c : Char) (rest : List Char) : Except Fault (Piece × List Char) :=
  if c = '}' then
    if nested then .ok (.closing, rest) else .error ⟨.unexpectedClosing, c :: rest⟩
  else if c = '@' then readAtRule rest
  else if Head.opensComment c rest then readComment rest.tail
  else readStatement nested (c :: rest)

/-! ## A piece is taken from the front of the text -/

theorem length_readComment {body left : List Char} {piece : Piece}
    (h : readComment body = .ok (piece, left)) : left.length ≤ body.length := by
  unfold readComment at h
  split at h
  · cases h
  · next hcut =>
      cases h
      simp only [cutComment_eq_append hcut, List.length_append, List.length_cons]
      omega

theorem length_atRule (name params rest : List Char) :
    (atRule name params rest).2.length ≤ rest.length := by
  unfold atRule
  split <;> simp

theorem length_readAtRule {input left : List Char} {piece : Piece}
    (h : readAtRule input = .ok (piece, left)) : left.length ≤ input.length := by
  unfold readAtRule at h
  dsimp only at h
  split at h
  · cases h
  · split at h
    · cases h
    · next params rest hread =>
        have hhead := Head.length_readFrom hread
        have hname := (List.dropWhile_suffix isNameChar (l := input)).length_le
        have hrule := length_atRule (input.takeWhile isNameChar) params rest
        have hpair := Except.ok.inj h
        rw [hpair] at hrule
        dsimp only at hrule
        omega

theorem length_readStatement {nested : Bool} {input left : List Char} {piece : Piece}
    (h : readStatement nested input = .ok (piece, left)) : left.length < input.length := by
  unfold readStatement at h
  split at h
  · cases h
  · next hread =>
      cases h
      have := Head.length_readFrom hread
      simp only [List.length_cons] at this
      omega
  · next head rest _ hread =>
      have hlen := Head.length_readFrom hread
      split at h
      · split at h
        · next hdecl =>
            cases h
            have := List.length_pos_iff.mpr (Declaration.ne_nil_of_read hdecl)
            omega
        · cases h
      · cases h

theorem length_next {nested : Bool} {c : Char} {rest left : List Char} {piece : Piece}
    (h : next nested c rest = .ok (piece, left)) : left.length ≤ rest.length := by
  unfold next at h
  split at h
  · split at h
    · cases h
      exact Nat.le_refl _
    · cases h
  · split at h
    · exact length_readAtRule h
    · split at h
      · have := length_readComment h
        simp only [List.length_tail] at this
        omega
      · have := length_readStatement h
        simp only [List.length_cons] at this
        omega

end Piece

end Unnest.Source
