import Unnest.Sheet.Basic

/-!
# Printing a sheet

A sheet is printed one node a line, two spaces to a level. `lines` decides
which lines there are and `Line.text` how one of them is written. A node is
printed once, even if damaged links lead to it again, and nothing is printed
for a node that only says that it is the root.
-/

namespace Unnest

namespace Content

/-- What stands in front of a block, or in front of the semicolon of an
at-rule without one. -/
def heading : Content → String
  | rule selector => selector
  | atRule name params _ => if params = "" then "@" ++ name else "@" ++ name ++ " " ++ params
  | _ => ""

def statement : Content → String
  | declaration property value important =>
      property ++ ": " ++ value ++ (if important then " !important" else "") ++ ";"
  | comment text => "/* " ++ text ++ " */"
  | content => content.heading ++ ";"

/-- Whether braces are printed: always for a rule, and for an at-rule that has
a block or children. -/
def opensBlock (hasChildren : Bool) : Content → Bool
  | rule _ => true
  | atRule _ _ hasBlock => hasBlock || hasChildren
  | _ => false

end Content

inductive Line.Form where
  | statement (content : Content)
  | emptyBlock (content : Content)
  | opening (content : Content)
  | closing
deriving DecidableEq

structure Line where
  depth : Nat
  id : NodeId
  form : Line.Form
deriving DecidableEq

namespace Line

def Form.text : Form → String
  | statement content => content.statement
  | emptyBlock content => content.heading ++ " \x7b\x7d"
  | opening content => content.heading ++ " \x7b"
  | closing => "\x7d"

def indent (depth : Nat) : String :=
  String.ofList (List.replicate (2 * depth) ' ')

def text (line : Line) : String :=
  indent line.depth ++ line.form.text ++ "\n"

def isFirst (line : Line) : Bool :=
  line.form != .closing

end Line

namespace Sheet

/-- What is left to be printed: a node with what is below it, or the end of a
block whose beginning is printed. -/
inductive Todo where
  | node (id : NodeId) (depth : Nat)
  | close (id : NodeId) (depth : Nat)
deriving DecidableEq

def firstForm? (s : Sheet) (id : NodeId) : Option Line.Form :=
  match s.content? id with
  | none => none
  | some .root => none
  | some content =>
      if content.opensBlock (!(s.children id).isEmpty) then
        some (if (s.children id).isEmpty then .emptyBlock content else .opening content)
      else some (.statement content)

def inside (s : Sheet) (id : NodeId) (depth : Nat) : Line.Form → List Todo
  | .opening _ => (s.children id).map (Todo.node · (depth + 1)) ++ [.close id depth]
  | _ => []

/-- The lines for what is left to be printed, when `fresh` has the ids that
are not printed yet. -/
def linesFrom (s : Sheet) (fresh : List NodeId) : List Todo → List Line
  | [] => []
  | .close id depth :: todo => ⟨depth, id, .closing⟩ :: s.linesFrom fresh todo
  | .node id depth :: todo =>
      if id ∈ fresh then
        match s.firstForm? id with
        | none => s.linesFrom (fresh.erase id) todo
        | some form =>
            ⟨depth, id, form⟩ :: s.linesFrom (fresh.erase id) (s.inside id depth form ++ todo)
      else s.linesFrom fresh todo
termination_by todo => (fresh.length, todo.length)
decreasing_by
  · exact Prod.Lex.right _ (by simp)
  · exact Prod.Lex.left _ _ (length_erase_lt (by assumption))
  · exact Prod.Lex.left _ _ (length_erase_lt (by assumption))
  · exact Prod.Lex.right _ (by simp)

def lines (s : Sheet) : List Line :=
  s.linesFrom s.ids ((s.children rootId).map (Todo.node · 0))

def print (s : Sheet) : String :=
  String.join (s.lines.map Line.text)

end Sheet

end Unnest
