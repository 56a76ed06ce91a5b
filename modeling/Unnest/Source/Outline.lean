import Unnest.Source.Piece

/-!
# Outlines

The outline of a text is the list of its pieces. Blanks and semicolons between
pieces count for nothing. The reader remembers the text behind each opening
brace that waits for its partner; at the end of the text none may be left.
-/

namespace Unnest.Source

open Text

def isFiller (c : Char) : Bool :=
  isBlank c || c == ';'

/-- The open blocks behind a piece, innermost first, when `left` is the text
behind it. Each is given as the text behind its brace. -/
def Piece.openAfter (opened : List (List Char)) (left : List Char) :
    Piece → List (List Char)
  | opening _ => left :: opened
  | leaf _ => opened
  | closing => opened.tail

theorem length_dropWhile_isFiller_le (input : List Char) :
    (input.dropWhile isFiller).length ≤ input.length :=
  (List.dropWhile_suffix isFiller).length_le

/-- The pieces of `input` inside the given open blocks. -/
def outlineFrom (opened : List (List Char)) (input : List Char) :
    Except Fault (List Piece) :=
  match _hskip : input.dropWhile isFiller with
  | [] =>
      match opened with
      | [] => .ok []
      | body :: _ => .error ⟨.unclosedBlock, '{' :: body⟩
  | c :: rest =>
      match _hnext : Piece.next (!opened.isEmpty) c rest with
      | .error fault => .error fault
      | .ok (piece, left) =>
          match outlineFrom (piece.openAfter opened left) left with
          | .error fault => .error fault
          | .ok pieces => .ok (piece :: pieces)
termination_by input.length
decreasing_by
  have hskip := length_dropWhile_isFiller_le input
  have hnext := Piece.length_next _hnext
  rw [_hskip, List.length_cons] at hskip
  omega

def outline (input : List Char) : Except Fault (List Piece) :=
  outlineFrom [] input

end Unnest.Source
