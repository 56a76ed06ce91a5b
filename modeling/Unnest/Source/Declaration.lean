import Unnest.Node
import Unnest.Text.Blank
import Unnest.Text.Bracket

/-!
# Declarations

The head of a declaration is cut at its first colon outside brackets and
strings. The property stands in front of it and may not be empty, the value
behind it. A value may end in the mark of importance, in any case of letters,
which is not part of the value.
-/

namespace Unnest.Source.Declaration

open Text

/-- Cuts a text in front of and behind the first colon, from inside the string
that `quote` began, if any, and from inside `depth` brackets. -/
def cutAtColonFrom (quote : Option Char) (depth : Nat) :
    List Char → Option (List Char × List Char)
  | [] => none
  | c :: rest =>
      match quote with
      | some q =>
          (cutAtColonFrom (if c = q then none else some q) depth rest).map
            fun (before, after) => (c :: before, after)
      | none =>
          if c = ':' ∧ depth = 0 then some ([], rest)
          else
            (cutAtColonFrom (if isQuote c then some c else none) (depthAfter depth c) rest).map
              fun (before, after) => (c :: before, after)

def cutAtColon (text : List Char) : Option (List Char × List Char) :=
  cutAtColonFrom none 0 text

theorem cutAtColonFrom_eq_append {quote : Option Char} {depth : Nat}
    {text before after : List Char}
    (h : cutAtColonFrom quote depth text = some (before, after)) :
    text = before ++ ':' :: after := by
  induction text generalizing quote depth before with
  | nil => simp [cutAtColonFrom] at h
  | cons c rest ih =>
      cases quote with
      | some q =>
          rw [cutAtColonFrom] at h
          obtain ⟨⟨before', after'⟩, hcut, heq⟩ := Option.map_eq_some_iff.mp h
          cases heq
          simp [ih hcut]
      | none =>
          rw [cutAtColonFrom] at h
          split at h
          · next hcolon =>
              cases h
              simp [hcolon.1]
          · obtain ⟨⟨before', after'⟩, hcut, heq⟩ := Option.map_eq_some_iff.mp h
            cases heq
            simp [ih hcut]

def importantMark : List Char :=
  "!important".toList

/-- Whether the text ends in the mark, capital letters taken as small ones. -/
def isMarked (value : List Char) : Bool :=
  (value.drop (value.length - importantMark.length)).map Char.toLower == importantMark

def unmarked (value : List Char) : List Char :=
  trimEnd (value.take (value.length - importantMark.length))

def ofParts (property value : List Char) : Content :=
  if isMarked value then .declaration (String.ofList property) (String.ofList (unmarked value)) true
  else .declaration (String.ofList property) (String.ofList value) false

def read (text : List Char) : Option Content :=
  match cutAtColon text with
  | none => none
  | some (before, after) =>
      if trim before = [] then none else some (ofParts (trim before) (trim after))

theorem ne_nil_of_read {text : List Char} {content : Content}
    (h : read text = some content) : text ≠ [] := by
  rintro rfl
  simp [read, cutAtColon, cutAtColonFrom] at h

end Unnest.Source.Declaration
