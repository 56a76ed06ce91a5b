import Unnest.Sheet.Error
import Unnest.Sheet.Traverse

/-!
# Editing a sheet

The checked edits: adding a node, moving one with all that is below it, copying
a rule under another selector, and detaching a node. Each of them keeps parent
and child links in agreement, and a refused edit changes nothing, since it
gives no sheet at all.
-/

namespace Unnest.Sheet

/-! ## Steps that edits are made of -/

def enlist (s : Sheet) (parent child : NodeId) : Sheet :=
  s.modify parent fun node =>
    { node with content := node.content.withBlock, children := node.children ++ [child] }

/-- Takes every mention of `child` out of the list of `parent`. -/
def unlist (s : Sheet) (parent child : NodeId) : Sheet :=
  s.modify parent fun node => { node with children := node.children.filter (· != child) }

/-- Adds a node with the next free id as the last child of `parent`. -/
def grow (s : Sheet) (parent : NodeId) (content : Content) : Sheet :=
  (s.push ⟨content, some parent, []⟩).enlist parent s.size

def unlink (s : Sheet) (id : NodeId) : Sheet :=
  match s.parent? id with
  | none => s
  | some parent => (s.setParent id none).unlist parent id

def adoptAll (s : Sheet) (parent : NodeId) (children : List NodeId) : Sheet :=
  children.foldl (fun t child => t.setParent child (some parent)) s

def requireContainer (s : Sheet) (id : NodeId) : Except EditError Unit :=
  match s.content? id with
  | none => .error (.unknownNode id)
  | some content => if content.isContainer then .ok () else .error (.notAContainer id)

/-! ## Checked edits -/

def append (s : Sheet) (parent : NodeId) (content : Content) :
    Except EditError (NodeId × Sheet) :=
  if content = .root then .error .duplicateRoot
  else
    match s.requireContainer parent with
    | .error e => .error e
    | .ok () => .ok (s.size, s.grow parent content)

/-- Moves `child`, with all that is below it, to the end of `parent`. -/
def move (s : Sheet) (parent child : NodeId) : Except EditError Sheet :=
  match s.requireContainer parent with
  | .error e => .error e
  | .ok () =>
      if s.get? child = none then .error (.unknownNode child)
      else if child = rootId then .error .duplicateRoot
      else if child = parent ∨ child ∈ s.ancestors parent then
        .error (.wouldCreateCycle child parent)
      else .ok (((s.unlink child).setParent child (some parent)).enlist parent child)

/-- Makes a detached copy of the rule `id` that carries `selector`, and gives
its id. The children go over to the copy. -/
def copyRule (s : Sheet) (id : NodeId) (selector : String) :
    Except EditError (NodeId × Sheet) :=
  match s.content? id with
  | none => .error (.unknownNode id)
  | some content =>
      if content.isRule then
        let children := s.children id
        .ok (s.size, ((s.setChildren id []).adoptAll s.size children).push
          ⟨.rule selector, none, children⟩)
      else .error (.notARule id)

/-- Takes `id`, with all that is below it, out of its parent. -/
def detach (s : Sheet) (id : NodeId) : Except EditError Sheet :=
  if s.get? id = none then .error (.unknownNode id)
  else if id = rootId then .error .cannotRemoveRoot
  else .ok (s.unlink id)

/-! ## Sizes -/

@[simp] theorem size_enlist (s : Sheet) (parent child : NodeId) :
    (s.enlist parent child).size = s.size := by
  simp [enlist]

@[simp] theorem size_unlist (s : Sheet) (parent child : NodeId) :
    (s.unlist parent child).size = s.size := by
  simp [unlist]

@[simp] theorem size_grow (s : Sheet) (parent : NodeId) (content : Content) :
    (s.grow parent content).size = s.size + 1 := by
  simp [grow]

@[simp] theorem size_unlink (s : Sheet) (id : NodeId) : (s.unlink id).size = s.size := by
  unfold unlink
  split <;> simp

@[simp] theorem size_adoptAll (s : Sheet) (parent : NodeId) (children : List NodeId) :
    (s.adoptAll parent children).size = s.size := by
  induction children generalizing s with
  | nil => rfl
  | cons child children ih => simpa [adoptAll] using ih (s.setParent child (some parent))

theorem size_move {s t : Sheet} {parent child : NodeId} (h : s.move parent child = .ok t) :
    t.size = s.size := by
  unfold move at h
  split at h
  · cases h
  · split at h
    · cases h
    · split at h
      · cases h
      · split at h
        · cases h
        · cases h
          simp

theorem size_copyRule {s t : Sheet} {id copy : NodeId} {selector : String}
    (h : s.copyRule id selector = .ok (copy, t)) : copy = s.size ∧ t.size = s.size + 1 := by
  unfold copyRule at h
  split at h
  · cases h
  · split at h
    · cases h
      simp
    · cases h

theorem size_detach {s t : Sheet} {id : NodeId} (h : s.detach id = .ok t) :
    t.size = s.size := by
  unfold detach at h
  split at h
  · cases h
  · split at h
    · cases h
    · cases h
      simp

end Unnest.Sheet
