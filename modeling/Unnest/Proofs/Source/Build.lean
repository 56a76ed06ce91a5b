import Unnest.Proofs.Sheet.WellFormed
import Unnest.Source.Parse

/-!
# Building a forest

The pieces of a forest are its nodes in document order, with a closing behind
each block. Building them plants the forest under the innermost open node, and
its nodes get the next free ids in the order of the pieces.
-/

namespace Unnest

open Source

def Forest.pieces : Forest → List Piece
  | nil => []
  | node _ content below beside =>
      if content.opensBlock false then
        .opening content :: (below.pieces ++ .closing :: beside.pieces)
      else .leaf content :: beside.pieces

@[simp] theorem Forest.pieces_number (first : NodeId) (forest : Forest) :
    (forest.number first).pieces = forest.pieces := by
  induction forest generalizing first with
  | nil => rfl
  | node id content below beside ihBelow ihBeside => simp [number, pieces, ihBelow, ihBeside]

@[simp] theorem Forest.pieces_mapIds (f : NodeId → NodeId) (forest : Forest) :
    (forest.mapIds f).pieces = forest.pieces := by
  induction forest with
  | nil => rfl
  | node id content below beside ihBelow ihBeside => simp [mapIds, pieces, ihBelow, ihBeside]

theorem Content.withBlock_eq_self {content : Content} (h : content.opensBlock false = true) :
    content.withBlock = content := by
  cases content <;> simp_all [opensBlock, withBlock]

namespace Sheet

def plant (parent : NodeId) : Forest → Sheet → Sheet
  | .nil, s => s
  | .node _ content below beside, s =>
      plant parent beside (plant s.size below (s.grow parent content))

theorem build_pieces {forest : Forest} (h : forest.Formed) (s : Sheet) (enclosing : List NodeId)
    (rest : List Piece) :
    s.build enclosing (forest.pieces ++ rest) =
      (plant (enclosing.headD rootId) forest s).build enclosing rest := by
  induction forest generalizing s enclosing rest with
  | nil => rfl
  | node id content below beside ihBelow ihBeside =>
      obtain ⟨-, hleaf, hbelow, hbeside⟩ := h
      rw [Forest.pieces, plant]
      split
      · rw [List.cons_append, build, List.append_assoc, ihBelow hbelow, List.cons_append, build,
          List.tail_cons, ihBeside hbeside, List.headD_cons]
      · next hopens =>
          rw [hleaf (by simpa using hopens), plant, List.cons_append, build, ihBeside hbeside]

theorem get?_grow {s : Sheet} {parent : NodeId} (hparent : parent < s.size) (content : Content)
    (id : NodeId) :
    (s.grow parent content).get? id =
      if id = s.size then some ⟨content, some parent, []⟩
      else if id = parent then
        (s.get? id).map fun node =>
          { node with content := node.content.withBlock, children := node.children ++ [s.size] }
      else s.get? id := by
  have hne : s.size ≠ parent := Nat.ne_of_gt hparent
  rw [grow, enlist, get?_modify, get?_push]
  by_cases hnew : id = s.size
  · rw [if_pos hnew, if_pos hnew, if_neg (hnew ▸ hne)]
  · rw [if_neg hnew, if_neg hnew]

structure Planted (s : Sheet) (parent : NodeId) (forest : Forest) (t : Sheet) : Prop where
  size : t.size = s.size + forest.size
  get?_parent : t.get? parent = (s.get? parent).map fun node =>
    { node with children := node.children ++ (forest.number s.size).roots }
  get?_of_ne {id : NodeId} : id < s.size → id ≠ parent → t.get? id = s.get? id
  mirrors : (forest.number s.size).Mirrors t parent

theorem Planted.refl (s : Sheet) (parent : NodeId) : Planted s parent .nil s where
  size := rfl
  get?_parent := by simp [Forest.number, Forest.roots]
  get?_of_ne := fun _ _ => rfl
  mirrors := trivial

private theorem Planted.node {s s₂ s₃ : Sheet} {parent id : NodeId} {content : Content}
    {below beside : Forest} (hparent : parent < s.size)
    (hblock : ∀ node, s.get? parent = some node → node.content.withBlock = node.content)
    (hbelow : Planted (s.grow parent content) s.size below s₂)
    (hbeside : Planted s₂ parent beside s₃) :
    Planted s parent (.node id content below beside) s₃ := by
  have hne : s.size ≠ parent := Nat.ne_of_gt hparent
  have hsize : s₂.size = s.size + 1 + below.size := by rw [hbelow.size, size_grow]
  have hnew : s.size < s₂.size := by
    rw [hsize, Nat.add_assoc]
    exact Nat.lt_add_of_pos_right (Nat.add_pos_left Nat.one_pos _)
  have hmirrors := hbelow.mirrors
  have hroots := hbeside.mirrors
  rw [size_grow] at hmirrors
  rw [hsize] at hroots
  refine ⟨?_, ?_, ?_, ?_⟩
  · rw [hbeside.size, hsize, Forest.size, Nat.add_comm below.size 1, ← Nat.add_assoc,
      ← Nat.add_assoc]
  · rw [hbeside.get?_parent, hbelow.get?_of_ne (Nat.lt_of_lt_of_le hparent (by simp)) hne.symm,
      get?_grow hparent, if_neg hne.symm, if_pos rfl, hsize]
    cases hnode : s.get? parent with
    | none => rfl
    | some node => simp [hblock node hnode, Forest.number, Forest.roots]
  · intro other hother hother'
    have hother'' : other ≠ s.size := Nat.ne_of_lt hother
    rw [hbeside.get?_of_ne (Nat.lt_trans hother hnew) hother',
      hbelow.get?_of_ne (Nat.lt_of_lt_of_le hother (by simp)) hother'', get?_grow hparent,
      if_neg hother'', if_neg hother']
  · refine ⟨?_, ?_, hroots⟩
    · rw [hbeside.get?_of_ne hnew hne, hbelow.get?_parent, get?_grow hparent, if_pos rfl]
      simp
    · apply hmirrors.congr
      intro other hother
      rw [Forest.ids_number, List.mem_range'_1] at hother
      have hlt : parent < other := Nat.lt_of_lt_of_le (Nat.lt_succ_of_lt hparent) hother.1
      exact hbeside.get?_of_ne (hsize ▸ hother.2) (Nat.ne_of_gt hlt)

theorem planted_plant {forest : Forest} (h : forest.Formed) {s : Sheet} {parent : NodeId}
    (hparent : parent < s.size)
    (hblock : ∀ node, s.get? parent = some node → node.content.withBlock = node.content) :
    Planted s parent forest (plant parent forest s) := by
  induction forest generalizing s parent with
  | nil => exact .refl s parent
  | node id content below beside ihBelow ihBeside =>
      obtain ⟨-, hleaf, hformed, hformed'⟩ := h
      have hnew : s.size < (s.grow parent content).size := by simp
      have hbelow : Planted (s.grow parent content) s.size below
          (plant s.size below (s.grow parent content)) := by
        cases hopens : content.opensBlock false with
        | false =>
            rw [hleaf hopens]
            exact .refl _ _
        | true =>
            apply ihBelow hformed hnew
            intro node hnode
            rw [get?_grow hparent, if_pos rfl, Option.some.injEq] at hnode
            rw [← hnode]
            exact Content.withBlock_eq_self hopens
      refine .node hparent hblock hbelow (ihBeside hformed' ?_ ?_)
      · rw [hbelow.size, size_grow]
        exact Nat.lt_of_lt_of_le (Nat.lt_succ_of_lt hparent) (Nat.le_add_right _ _)
      · intro node hnode
        have hne : parent ≠ s.size := Nat.ne_of_lt hparent
        rw [hbelow.get?_of_ne (Nat.lt_trans hparent hnew) hne, get?_grow hparent, if_neg hne,
          if_pos rfl, Option.map_eq_some_iff] at hnode
        obtain ⟨before, -, rfl⟩ := hnode
        simp

theorem planted_ofPieces {forest : Forest} (h : forest.Formed) :
    Planted empty rootId forest (ofPieces forest.pieces) := by
  have hbuild := build_pieces h empty [] []
  rw [List.append_nil, build] at hbuild
  rw [ofPieces, hbuild]
  apply planted_plant h (by decide)
  intro node hnode
  rw [get?_empty, if_pos rfl, Option.some.injEq] at hnode
  rw [← hnode]
  rfl

/-- The sheet of a forest's pieces holds the forest, numbered from one on. -/
theorem holds_ofPieces {forest : Forest} (h : forest.Formed) :
    (ofPieces forest.pieces).Holds (forest.number 1) where
  root := by simpa using (planted_ofPieces h).get?_parent
  mirrors := (planted_ofPieces h).mirrors

theorem size_ofPieces {forest : Forest} (h : forest.Formed) :
    (ofPieces forest.pieces).size = forest.size + 1 := by
  rw [(planted_ofPieces h).size, size_empty, Nat.add_comm]

theorem ids_ofPieces {forest : Forest} (h : forest.Formed) :
    (ofPieces forest.pieces).ids = rootId :: (forest.number 1).ids := by
  rw [ids, size_ofPieces h, Forest.ids_number, List.range_eq_range', List.range'_succ]
  rfl

theorem wellFormed_ofPieces {forest : Forest} (h : forest.Formed) :
    (ofPieces forest.pieces).WellFormed := by
  have hids := ids_ofPieces h
  refine wellFormed_of_holds (holds_ofPieces h) ?_ ?_ ?_
  · exact h.number 1
  · rw [← hids]
    exact nodup_ids _
  · intro id hid
    rw [← hids]
    exact mem_ids.mpr hid

end Sheet

end Unnest
