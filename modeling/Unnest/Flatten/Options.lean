/-!
# Options of the pass

Options come from a host's configuration, where they are an object with named
settings or a list of them in order. A setting that is left out has its
default; settings of other names do not matter.
-/

namespace Unnest.Flatten

inductive Setting where
  | object (fields : List (String × Setting))
  | list (items : List Setting)
  | boolean (value : Bool)
  /-- Nothing, a number or a text. -/
  | other
deriving Inhabited

structure Options where
  /-- Rules that lose their last child stay where they are. -/
  preserveEmpty : Bool := false
deriving DecidableEq

namespace Options

def withPreserveEmpty (options : Options) (value : Bool) : Options :=
  { options with preserveEmpty := value }

/-- The options that a configuration stands for, if it is in order. -/
def ofSetting? : Setting → Option Options
  | .object fields =>
      match fields.lookup "preserveEmpty" with
      | none => some {}
      | some (.boolean value) => some ⟨value⟩
      | some _ => none
  | .list [] => some {}
  | .list [.boolean value] => some ⟨value⟩
  | _ => none

def toSetting (options : Options) : Setting :=
  .object [("preserveEmpty", .boolean options.preserveEmpty)]

theorem ofSetting?_toSetting (options : Options) : ofSetting? options.toSetting = some options :=
  rfl

end Options

end Unnest.Flatten
