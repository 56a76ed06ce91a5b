/-!
# Nodes

A stylesheet is made of nodes. A node has its content, which is what its own
line of the text says, and links to the nodes around it.
-/

namespace Unnest

/-- Nodes are numbered in the order of their creation. -/
abbrev NodeId := Nat

def rootId : NodeId := 0

/-- What a node says, apart from its place among the others. -/
inductive Content where
  | root
  | rule (selector : String)
  /-- `hasBlock` tells a body in braces, even an empty one, from a bare statement. -/
  | atRule (name params : String) (hasBlock : Bool)
  | declaration (property value : String) (important : Bool)
  | comment (text : String)
deriving DecidableEq

namespace Content

def isContainer : Content → Bool
  | root | rule _ | atRule .. => true
  | declaration .. | comment _ => false

def isRule : Content → Bool
  | rule _ => true
  | _ => false

def isDeclaration : Content → Bool
  | declaration .. => true
  | _ => false

def selector? : Content → Option String
  | rule selector => some selector
  | _ => none

def sort : Content → String
  | root => "root"
  | rule _ => "rule"
  | atRule .. => "atrule"
  | declaration .. => "decl"
  | comment _ => "comment"

/-- The content once the node holds another one: an at-rule then has a block. -/
def withBlock : Content → Content
  | atRule name params _ => atRule name params true
  | content => content

theorem isRule_eq_isSome_selector? (content : Content) :
    content.isRule = content.selector?.isSome := by
  cases content <;> rfl

@[simp] theorem isContainer_withBlock (content : Content) :
    content.withBlock.isContainer = content.isContainer := by
  cases content <;> rfl

@[simp] theorem withBlock_withBlock (content : Content) :
    content.withBlock.withBlock = content.withBlock := by
  cases content <;> rfl

end Content

structure Node where
  content : Content
  parent : Option NodeId := none
  children : List NodeId := []
deriving DecidableEq

end Unnest
