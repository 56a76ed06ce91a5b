import Unnest.Text.Position

/-!
# Errors in a stylesheet's text

A reader that cannot go on gives a `Fault`: the reason, and the text that is
left at the place it blames. With the whole text at hand a fault becomes a
`SyntaxError`, which has the position instead.
-/

namespace Unnest

inductive Reason where
  | unclosedBlock
  | unexpectedClosing
  | unknownWord
  | unclosedComment
  | unclosedString
  | atRuleWithoutName
deriving DecidableEq

def Reason.message : Reason → String
  | unclosedBlock => "Unclosed block"
  | unexpectedClosing => "Unexpected \x7d"
  | unknownWord => "Unknown word"
  | unclosedComment => "Unclosed comment"
  | unclosedString => "Unclosed string"
  | atRuleWithoutName => "At-rule without name"

/-- `rest` begins with the character to blame. -/
structure Fault where
  reason : Reason
  rest : List Char
deriving DecidableEq

structure SyntaxError where
  reason : Reason
  position : Text.Position
deriving DecidableEq

namespace SyntaxError

def ofFault (source : List Char) (fault : Fault) : SyntaxError :=
  ⟨fault.reason, .ofRest source fault.rest⟩

def message (error : SyntaxError) : String :=
  s!"CssSyntaxError: {error.position.line}:{error.position.column}: {error.reason.message}"

end SyntaxError

end Unnest
