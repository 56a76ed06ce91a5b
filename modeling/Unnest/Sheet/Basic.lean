import Unnest.Node

/-!
# Sheets

A sheet keeps its nodes in numbered slots. A node never leaves its slot, so an
id stays good for the life of the sheet, and a removed node is only detached.

`get?` is the one view of a sheet: two sheets with the same view are equal
(`ext_get?`), and each operation is described by what it does to the view. All
changes are made of `push`, which fills a new slot, and `modify`, which writes
one slot and leaves a sheet without that slot as it is.
-/

namespace Unnest

structure Sheet where
  nodes : Array Node
  nonempty : 0 < nodes.size
deriving DecidableEq

namespace Sheet

def empty : Sheet :=
  ⟨#[⟨.root, none, []⟩], by decide⟩

/-- The number of slots, those of detached nodes included. -/
def size (s : Sheet) : Nat :=
  s.nodes.size

def get? (s : Sheet) (id : NodeId) : Option Node :=
  s.nodes[id]?

def ids (s : Sheet) : List NodeId :=
  List.range s.size

def modify (s : Sheet) (id : NodeId) (change : Node → Node) : Sheet :=
  ⟨s.nodes.modify id change, by simpa using s.nonempty⟩

def push (s : Sheet) (node : Node) : Sheet :=
  ⟨s.nodes.push node, by simp⟩

/-! ## Views of one node -/

def content? (s : Sheet) (id : NodeId) : Option Content :=
  (s.get? id).map (·.content)

def parent? (s : Sheet) (id : NodeId) : Option NodeId :=
  (s.get? id).bind (·.parent)

/-- The listed children; a node that does not exist has none. -/
def children (s : Sheet) (id : NodeId) : List NodeId :=
  ((s.get? id).map (·.children)).getD []

def selector? (s : Sheet) (id : NodeId) : Option String :=
  (s.content? id).bind Content.selector?

def isRoot (s : Sheet) (id : NodeId) : Bool :=
  s.content? id == some .root

def isRule (s : Sheet) (id : NodeId) : Bool :=
  (s.content? id).any Content.isRule

def isDeclaration (s : Sheet) (id : NodeId) : Bool :=
  (s.content? id).any Content.isDeclaration

/-- Whether a declaration is listed directly under `id`. -/
def hasDeclarations (s : Sheet) (id : NodeId) : Bool :=
  (s.children id).any s.isDeclaration

def isEmpty (s : Sheet) : Bool :=
  (s.children rootId).isEmpty

/-! ## Writing one field

These keep nothing in order: links may come to disagree. -/

def setContent (s : Sheet) (id : NodeId) (content : Content) : Sheet :=
  s.modify id fun node => { node with content }

def setParent (s : Sheet) (id : NodeId) (parent : Option NodeId) : Sheet :=
  s.modify id fun node => { node with parent }

def setChildren (s : Sheet) (id : NodeId) (children : List NodeId) : Sheet :=
  s.modify id fun node => { node with children }

def pushChild (s : Sheet) (id child : NodeId) : Sheet :=
  s.modify id fun node => { node with children := node.children ++ [child] }

/-! ## What the operations do to the view -/

theorem ext_get? {s t : Sheet} (h : ∀ id, s.get? id = t.get? id) : s = t := by
  obtain ⟨nodes, _⟩ := s
  obtain ⟨nodes', _⟩ := t
  have : nodes = nodes' := Array.ext_getElem? h
  subst this
  rfl

theorem size_pos (s : Sheet) : 0 < s.size :=
  s.nonempty

theorem get?_eq_none_iff {s : Sheet} {id : NodeId} : s.get? id = none ↔ s.size ≤ id := by
  simp [get?, size]

theorem lt_size_of_get? {s : Sheet} {id : NodeId} {node : Node}
    (h : s.get? id = some node) : id < s.size := by
  rcases Nat.lt_or_ge id s.size with hlt | hge
  · exact hlt
  · rw [get?_eq_none_iff.mpr hge] at h
    cases h

@[simp] theorem mem_ids {s : Sheet} {id : NodeId} : id ∈ s.ids ↔ id < s.size := by
  simp [ids]

theorem nodup_ids (s : Sheet) : s.ids.Nodup :=
  List.nodup_range

theorem length_erase_lt {fresh : List NodeId} {id : NodeId} (h : id ∈ fresh) :
    (fresh.erase id).length < fresh.length := by
  have := List.length_erase_of_mem h
  have := List.length_pos_of_mem h
  omega

@[simp] theorem length_ids (s : Sheet) : s.ids.length = s.size := by
  simp [ids]

@[simp] theorem size_empty : empty.size = 1 := rfl

@[simp] theorem get?_empty (id : NodeId) :
    empty.get? id = if id = rootId then some ⟨.root, none, []⟩ else none := by
  cases id with
  | zero => rfl
  | succ id => simp [get?, empty, rootId]

@[simp] theorem size_modify (s : Sheet) (id : NodeId) (change : Node → Node) :
    (s.modify id change).size = s.size := by
  simp [modify, size]

theorem get?_modify (s : Sheet) (id other : NodeId) (change : Node → Node) :
    (s.modify id change).get? other =
      if other = id then (s.get? other).map change else s.get? other := by
  simp only [modify, get?, Array.getElem?_modify, eq_comm (a := id)]

@[simp] theorem size_push (s : Sheet) (node : Node) : (s.push node).size = s.size + 1 := by
  simp [push, size]

theorem get?_push (s : Sheet) (node : Node) (id : NodeId) :
    (s.push node).get? id = if id = s.size then some node else s.get? id :=
  Array.getElem?_push

@[simp] theorem size_setParent (s : Sheet) (id : NodeId) (parent : Option NodeId) :
    (s.setParent id parent).size = s.size := by
  simp [setParent]

@[simp] theorem size_setChildren (s : Sheet) (id : NodeId) (children : List NodeId) :
    (s.setChildren id children).size = s.size := by
  simp [setChildren]

theorem content?_setParent (s : Sheet) (id other : NodeId) (parent : Option NodeId) :
    (s.setParent id parent).content? other = s.content? other := by
  simp only [content?, setParent, get?_modify]
  split <;> cases s.get? other <;> rfl

theorem children_setParent (s : Sheet) (id other : NodeId) (parent : Option NodeId) :
    (s.setParent id parent).children other = s.children other := by
  simp only [children, setParent, get?_modify]
  split <;> cases s.get? other <;> rfl

theorem content?_setChildren (s : Sheet) (id other : NodeId) (children : List NodeId) :
    (s.setChildren id children).content? other = s.content? other := by
  simp only [content?, setChildren, get?_modify]
  split <;> cases s.get? other <;> rfl

theorem parent?_setChildren (s : Sheet) (id other : NodeId) (children : List NodeId) :
    (s.setChildren id children).parent? other = s.parent? other := by
  simp only [parent?, setChildren, get?_modify]
  split <;> cases s.get? other <;> rfl

end Sheet

end Unnest
