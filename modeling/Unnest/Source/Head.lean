import Unnest.Source.Error
import Unnest.Text.Bracket

/-!
# Heads

A head is the text in front of a block or of the end of a statement. It is
read character by character up to a brace or semicolon outside brackets,
strings and escapes. Comments are left out of it; all else is kept as it
stands. What ends the head is not taken.

`readFrom` is one `step` after the other, so its properties follow by induction
over the text. Its main ones here say that the rest is an end of the input and
that kept text and rest are together no longer than the input.
-/

namespace Unnest.Source.Head

open Text

/-- Where the next character stands. Strings and comments know the text from
their first character on. -/
inductive Place where
  | plain
  /-- Behind a backslash. -/
  | escaped
  | string (quote : Char) (start : List Char)
  | stringEscaped (quote : Char) (start : List Char)
  /-- Between the two characters that open a comment. -/
  | commentOpening (start : List Char)
  /-- In a comment, maybe right behind a star. -/
  | comment (start : List Char) (star : Bool)
deriving DecidableEq

structure Scan where
  place : Place := .plain
  depth : Nat := 0
deriving DecidableEq

/-- Whether `c`, in front of `rest`, opens a comment. -/
def opensComment (c : Char) (rest : List Char) : Bool :=
  c == '/' && rest.head? == some '*'

/-- Characters that end a head, where they have their meaning. -/
def isTerminator (c : Char) : Bool :=
  c == '{' || c == ';' || c == '}'

def Place.next (place : Place) (c : Char) (rest : List Char) : Place :=
  match place with
  | plain =>
      if opensComment c rest then commentOpening (c :: rest)
      else if isQuote c then string c (c :: rest)
      else if c = '\\' then escaped
      else plain
  | escaped => plain
  | string quote start =>
      if c = '\\' then stringEscaped quote start
      else if c = quote then plain
      else string quote start
  | stringEscaped quote start => string quote start
  | commentOpening start => comment start false
  | comment start star => if star ∧ c = '/' then plain else comment start (c == '*')

/-- Brackets count only where nothing takes their meaning away. -/
def Scan.step (scan : Scan) (c : Char) (rest : List Char) : Scan where
  place := scan.place.next c rest
  depth := if scan.place = .plain then depthAfter scan.depth c else scan.depth

/-- Whether `c`, in front of `rest`, belongs to the text of the head. -/
def Place.keeps (place : Place) (c : Char) (rest : List Char) : Bool :=
  match place with
  | plain => !opensComment c rest
  | commentOpening _ | comment .. => false
  | _ => true

def Scan.stops (scan : Scan) (c : Char) : Bool :=
  scan.place == .plain && scan.depth == 0 && isTerminator c

def Place.faultAtEnd? : Place → Option Fault
  | plain | escaped => none
  | string _ start | stringEscaped _ start => some ⟨.unclosedString, start⟩
  | commentOpening start | comment start _ => some ⟨.unclosedComment, start⟩

/-- The fault if `c` comes here: a string does not go over the end of a line. -/
def Place.faultAt? (place : Place) (c : Char) : Option Fault :=
  match place with
  | string _ start => if c = '\n' then some ⟨.unclosedString, start⟩ else none
  | _ => none

/-- Reads on from the given state. Gives the text and what is left behind it. -/
def readFrom (scan : Scan) : List Char → Except Fault (List Char × List Char)
  | [] =>
      match scan.place.faultAtEnd? with
      | some fault => .error fault
      | none => .ok ([], [])
  | c :: rest =>
      if scan.stops c then .ok ([], c :: rest)
      else
        match scan.place.faultAt? c with
        | some fault => .error fault
        | none =>
            match readFrom (scan.step c rest) rest with
            | .error fault => .error fault
            | .ok (text, left) =>
                .ok (if scan.place.keeps c rest then c :: text else text, left)

def read (input : List Char) : Except Fault (List Char × List Char) :=
  readFrom {} input

theorem length_readFrom {scan : Scan} {input text left : List Char}
    (h : readFrom scan input = .ok (text, left)) :
    text.length + left.length ≤ input.length := by
  induction input generalizing scan text with
  | nil =>
      rw [readFrom] at h
      split at h
      · cases h
      · cases h
        simp
  | cons c rest ih =>
      rw [readFrom] at h
      split at h
      · cases h
        simp
      · split at h
        · cases h
        · split at h
          · cases h
          · next hread =>
              cases h
              have := ih hread
              split <;> simp only [List.length_cons] <;> omega

theorem suffix_readFrom {scan : Scan} {input text left : List Char}
    (h : readFrom scan input = .ok (text, left)) : left <:+ input := by
  induction input generalizing scan text with
  | nil =>
      rw [readFrom] at h
      split at h
      · cases h
      · cases h
        exact List.suffix_refl []
  | cons c rest ih =>
      rw [readFrom] at h
      split at h
      · cases h
        exact List.suffix_refl _
      · split at h
        · cases h
        · split at h
          · cases h
          · next hread =>
              cases h
              exact (ih hread).trans (List.suffix_cons c rest)

theorem isTerminator_of_readFrom {scan : Scan} {input text left : List Char} {c : Char}
    (h : readFrom scan input = .ok (text, left)) (hc : left.head? = some c) :
    isTerminator c = true := by
  induction input generalizing scan text with
  | nil =>
      rw [readFrom] at h
      split at h
      · cases h
      · cases h
        simp at hc
  | cons d rest ih =>
      rw [readFrom] at h
      split at h
      · next hstop =>
          cases h
          simp_all [Scan.stops]
      · split at h
        · cases h
        · split at h
          · cases h
          · next hread =>
              cases h
              exact ih hread

end Unnest.Source.Head
