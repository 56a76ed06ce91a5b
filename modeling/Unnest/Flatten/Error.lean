import Unnest.Sheet.Error

/-!
# Errors of the pass

The pass refuses a malformed sheet. Any other edit that it cannot make is
reported with the reason of the edit as its cause.
-/

namespace Unnest

inductive FlattenError where
  | malformed (malformation : Malformation)
  | edit (cause : EditError)
deriving DecidableEq

namespace FlattenError

def ofEdit : EditError → FlattenError
  | .malformed malformation => malformed malformation
  | cause => edit cause

def message : FlattenError → String
  | malformed ⟨node, defect⟩ => s!"Malformed rule tree at node {node}: {defect.message}"
  | edit _ => "Failed to edit rule tree"

def chain (error : FlattenError) : List String :=
  match error with
  | malformed _ => [error.message]
  | edit cause => [error.message, cause.message]

end FlattenError

end Unnest
