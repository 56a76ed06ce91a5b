import Unnest.Proofs.Sheet.Order
import Unnest.Proofs.Sheet.Printing

/-!
# Two traversals of a damaged sheet

Child links may be shared or repeated, lead nowhere or run in circles.
`DepthFirst` says by recursion which nodes are met and in which order. A walk
keeps a row of pending ids in place of the recursion, marks an id when it takes
it, and still meets the same nodes in the same order.

Printing does not mark the root before it begins, and it leaves marks for the
ends of blocks among what is pending. Apart from the root, the nodes that are
fresh to it are those that are fresh to a walk at the same point. This is the
invariant by which both find the same order.
-/

namespace Unnest.Sheet

/-- Whoever goes through the row of ids and below each of them, a node before
what is below it, meets the nodes of the second row for the first time. The
nodes of `met` were met before, and an id without a slot is passed over. -/
inductive DepthFirst (s : Sheet) : (met ids order : List NodeId) → Prop
  | nil {met : List NodeId} : DepthFirst s met [] []
  | skip {met ids order : List NodeId} {id : NodeId} :
      s.size ≤ id ∨ id ∈ met → DepthFirst s met ids order → DepthFirst s met (id :: ids) order
  | visit {met ids below beside : List NodeId} {id : NodeId} :
      id < s.size → id ∉ met → DepthFirst s (met ++ [id]) (s.children id) below →
        DepthFirst s (met ++ id :: below) ids beside →
          DepthFirst s met (id :: ids) (id :: (below ++ beside))

/-- Only the first slot says that it is the root, and what may not hold nodes
lists none. Nothing is said of the other links. -/
structure WellSorted (s : Sheet) : Prop where
  root_iff {id : NodeId} : s.content? id = some .root ↔ id = rootId
  children_eq_nil {id : NodeId} {content : Content} :
    s.content? id = some content → content.isContainer = false → s.children id = []

variable {s : Sheet}

/-! ## The walk -/

namespace DepthFirst

variable {met ids order : List NodeId}

theorem unique {order' : List NodeId} (h : s.DepthFirst met ids order)
    (h' : s.DepthFirst met ids order') : order = order' := by
  induction h generalizing order' with
  | nil =>
      cases h'
      rfl
  | skip hskip _ ih =>
      cases h' with
      | skip _ hrest => exact ih hrest
      | visit hslot hfresh => exact absurd hskip (not_or.mpr ⟨Nat.not_le.mpr hslot, hfresh⟩)
  | visit hslot hfresh _ _ ihBelow ihBeside =>
      cases h' with
      | skip hskip => exact absurd hskip (not_or.mpr ⟨Nat.not_le.mpr hslot, hfresh⟩)
      | visit _ _ hbelow hbeside =>
          obtain rfl := ihBelow hbelow
          rw [ihBeside hbeside]

/-- What is met in a row is met in its first part or then in the rest. -/
theorem exists_of_append {ids' : List NodeId} (h : s.DepthFirst met (ids ++ ids') order) :
    ∃ first rest, order = first ++ rest ∧ s.DepthFirst met ids first ∧
      s.DepthFirst (met ++ first) ids' rest := by
  induction ids generalizing met order with
  | nil => exact ⟨[], order, rfl, .nil, by simpa using h⟩
  | cons id ids ih =>
      cases h with
      | skip hskip hrest =>
          obtain ⟨first, rest, rfl, hfirst, hrest⟩ := ih hrest
          exact ⟨first, rest, rfl, .skip hskip hfirst, hrest⟩
      | @visit _ _ below _ _ hslot hfresh hbelow hbeside =>
          obtain ⟨first, rest, rfl, hfirst, hrest⟩ := ih hbeside
          refine ⟨id :: (below ++ first), rest, by simp, .visit hslot hfresh hbelow hfirst, ?_⟩
          rw [List.append_assoc, List.cons_append] at hrest
          exact hrest

end DepthFirst

/-- A walk meets what the recursion meets. -/
theorem depthFirst_walkFrom {met fresh pending : List NodeId} (hfresh : s.Unmet met fresh) :
    s.DepthFirst met pending (s.walkFrom fresh pending) := by
  fun_induction walkFrom s fresh pending generalizing met with
  | case1 => exact .nil
  | case2 fresh first pending hfirst ih =>
      obtain ⟨below, beside, heq, hbelow, hbeside⟩ := (ih (hfresh.erase first)).exists_of_append
      obtain ⟨hslot, hmet⟩ := hfresh.mem_iff.mp hfirst
      rw [List.append_assoc, List.singleton_append] at hbeside
      rw [heq]
      exact .visit hslot hmet hbelow hbeside
  | case3 fresh first pending hfirst ih =>
      exact .skip (hfresh.not_mem_iff.mp hfirst) (ih hfresh)

theorem depthFirst_walk_iff {order : List NodeId} :
    s.DepthFirst [] [rootId] order ↔ order = s.walk := by
  have hwalk : s.DepthFirst [] [rootId] s.walk := depthFirst_walkFrom s.unmet_ids
  exact ⟨fun h => h.unique hwalk, fun heq => heq ▸ hwalk⟩

/-! ## What is to be printed -/

namespace Todo

def nodes : List Todo → List NodeId
  | [] => []
  | node id _ :: todo => id :: nodes todo
  | close .. :: todo => nodes todo

def closes : List Todo → List NodeId
  | [] => []
  | node .. :: todo => closes todo
  | close id _ :: todo => id :: closes todo

theorem nodes_append (todo todo' : List Todo) :
    nodes (todo ++ todo') = nodes todo ++ nodes todo' := by
  induction todo with
  | nil => rfl
  | cons first todo ih => cases first <;> simp [nodes, ih]

theorem closes_append (todo todo' : List Todo) :
    closes (todo ++ todo') = closes todo ++ closes todo' := by
  induction todo with
  | nil => rfl
  | cons first todo ih => cases first <;> simp [closes, ih]

theorem nodes_map (ids : List NodeId) (depth : Nat) : nodes (ids.map (node · depth)) = ids := by
  induction ids with
  | nil => rfl
  | cons id ids ih => rw [List.map_cons, nodes, ih]

theorem closes_map (ids : List NodeId) (depth : Nat) : closes (ids.map (node · depth)) = [] := by
  induction ids with
  | nil => rfl
  | cons id ids ih => rw [List.map_cons, closes, ih]

end Todo

theorem closes_inside_subset (s : Sheet) (id : NodeId) (depth : Nat) (form : Line.Form) :
    Todo.closes (s.inside id depth form) ⊆ [id] := by
  cases form with
  | opening content =>
      rw [inside, Todo.closes_append, Todo.closes_map]
      exact List.Subset.refl [id]
  | _ => exact List.nil_subset _

/-! ## The lines of a node -/

theorem id_mem_of_mem_linesFrom {fresh : List NodeId} {todo : List Todo} {line : Line}
    (h : line ∈ s.linesFrom fresh todo) : line.id ∈ fresh ∨ line.id ∈ Todo.closes todo := by
  fun_induction linesFrom s fresh todo with
  | case1 => cases h
  | case2 fresh id depth todo ih =>
      rcases List.mem_cons.mp h with rfl | h
      · exact .inr List.mem_cons_self
      · exact (ih h).imp_right (List.mem_cons_of_mem id)
  | case3 fresh id depth todo hfresh hnone ih => exact (ih h).imp_left List.mem_of_mem_erase
  | case4 fresh id depth todo hfresh form hform ih =>
      rcases List.mem_cons.mp h with rfl | h
      · exact .inl hfresh
      · rw [Todo.closes_append, List.mem_append] at ih
        rcases ih h with hmem | hinside | htodo
        · exact .inl (List.mem_of_mem_erase hmem)
        · rw [List.mem_singleton.mp (s.closes_inside_subset id depth form hinside)]
          exact .inl hfresh
        · exact .inr htodo
  | case5 fresh id depth todo hfresh ih => exact ih h

theorem firstForm?_eq_none_iff {id : NodeId} :
    s.firstForm? id = none ↔ s.content? id = none ∨ s.content? id = some .root := by
  unfold firstForm?
  split
  · next hnone => simp [hnone]
  · next hroot => simp [hroot]
  · next content hne hcontent =>
      rw [hcontent]
      split <;> simpa using hne

/-- The first line of a node begins a block, unless there is nothing to put into it. -/
theorem cases_of_firstForm? {id : NodeId} {form : Line.Form} (h : s.firstForm? id = some form) :
    ∃ content, s.content? id = some content ∧
      ((form = .statement content ∧ content.opensBlock (!(s.children id).isEmpty) = false) ∨
        (form = .emptyBlock content ∧ s.children id = []) ∨ form = .opening content) := by
  unfold firstForm? at h
  split at h
  · cases h
  · cases h
  · next content hne hcontent =>
      refine ⟨content, hcontent, ?_⟩
      split at h
      · split at h
        · next hempty => exact .inr (.inl ⟨(Option.some.inj h).symm, List.isEmpty_iff.mp hempty⟩)
        · exact .inr (.inr (Option.some.inj h).symm)
      · next hopens => exact .inl ⟨(Option.some.inj h).symm, Bool.eq_false_iff.mpr hopens⟩

theorem isFirst_of_firstForm? {id : NodeId} {form : Line.Form} (h : s.firstForm? id = some form)
    (depth : Nat) : (⟨depth, id, form⟩ : Line).isFirst = true := by
  obtain ⟨content, -, ⟨rfl, -⟩ | ⟨rfl, -⟩ | rfl⟩ := cases_of_firstForm? h <;> rfl

theorem not_isFirst_closing (depth : Nat) (id : NodeId) :
    ¬ (⟨depth, id, .closing⟩ : Line).isFirst = true :=
  Bool.false_ne_true

private theorem filter_mem_erase {fresh : List NodeId} (hnodup : fresh.Nodup) (id : NodeId)
    (ids : List NodeId) :
    (ids.filter (· ∈ fresh)).filter (fun other => !other == id) =
      ids.filter (· ∈ fresh.erase id) := by
  rw [List.filter_filter]
  refine List.filter_congr fun other _ => ?_
  rw [Bool.eq_iff_iff]
  simp [hnodup.mem_erase_iff]

/-- The first line of a node stands in front of its other one. -/
theorem eraseDups_linesFrom {fresh : List NodeId} {todo : List Todo} (hnodup : fresh.Nodup)
    (hopen : (Todo.closes todo).Disjoint fresh) :
    (((s.linesFrom fresh todo).map Line.id).filter (· ∈ fresh)).eraseDups =
      ((s.linesFrom fresh todo).filter Line.isFirst).map Line.id := by
  fun_induction linesFrom s fresh todo with
  | case1 => rfl
  | case2 fresh id depth todo ih =>
      obtain ⟨hid, hopen⟩ := List.disjoint_cons_left.mp hopen
      rw [List.map_cons, List.filter_cons_of_neg (by simpa using hid),
        List.filter_cons_of_neg (not_isFirst_closing depth id)]
      exact ih hnodup hopen
  | case3 fresh id depth todo hfresh hnone ih =>
      rw [← ih (hnodup.erase id) (List.disjoint_of_subset_right List.erase_subset hopen)]
      congr 1
      refine List.filter_congr fun other hother => ?_
      obtain ⟨line, hline, rfl⟩ := List.mem_map.mp hother
      rw [decide_eq_decide]
      -- The node itself has no line, since it is neither fresh any more nor open.
      refine ⟨fun hmem => ?_, List.mem_of_mem_erase⟩
      exact (id_mem_of_mem_linesFrom hline).resolve_right fun hclose => hopen hclose hmem
  | case4 fresh id depth todo hfresh form hform ih =>
      have hopen' : (Todo.closes (s.inside id depth form ++ todo)).Disjoint (fresh.erase id) := by
        rw [Todo.closes_append, List.disjoint_append_left]
        refine ⟨fun other hinside hmem => ?_, List.disjoint_of_subset_right List.erase_subset hopen⟩
        rw [List.mem_singleton.mp (s.closes_inside_subset id depth form hinside)] at hmem
        exact hnodup.not_mem_erase hmem
      rw [List.map_cons, List.filter_cons_of_pos (by simpa using hfresh), List.eraseDups_cons,
        filter_mem_erase hnodup, List.filter_cons_of_pos (isFirst_of_firstForm? hform depth),
        List.map_cons, ih (hnodup.erase id) hopen']
  | case5 fresh id depth todo hfresh ih => exact ih hnodup hopen

/-! ## The printed nodes -/

namespace WellSorted

variable (h : s.WellSorted)
include h

theorem eq_root_of_firstForm? {id : NodeId} (hslot : id < s.size) (hnone : s.firstForm? id = none) :
    id = rootId := by
  obtain ⟨content, hcontent⟩ := exists_content? hslot
  rw [firstForm?_eq_none_iff, h.root_iff, hcontent] at hnone
  exact hnone.resolve_left (Option.some_ne_none content)

private theorem nodes_inside {id : NodeId} {form : Line.Form} (hform : s.firstForm? id = some form)
    (hroot : id ≠ rootId) (depth : Nat) :
    Todo.nodes (s.inside id depth form) = s.children id := by
  obtain ⟨content, hcontent, ⟨rfl, hopens⟩ | ⟨rfl, hnil⟩ | rfl⟩ := cases_of_firstForm? hform
  · show [] = s.children id
    cases content with
    | root => exact absurd (h.root_iff.mp hcontent) hroot
    | rule => cases hopens
    | atRule => simp_all [Content.opensBlock]
    | declaration | comment => exact (h.children_eq_nil hcontent rfl).symm
  · show [] = s.children id
    rw [hnil]
  · rw [inside, Todo.nodes_append, Todo.nodes_map]
    exact List.append_nil _

/-- Printing meets the nodes that a walk meets, the root being marked before. -/
theorem firsts_linesFrom {fresh : List NodeId} {todo : List Todo} (hnodup : fresh.Nodup)
    (hslots : fresh ⊆ s.ids) :
    ((s.linesFrom fresh todo).filter Line.isFirst).map Line.id =
      s.walkFrom (fresh.erase rootId) (Todo.nodes todo) := by
  fun_induction linesFrom s fresh todo with
  | case1 => rw [Todo.nodes, walkFrom, List.filter_nil, List.map_nil]
  | case2 fresh id depth todo ih =>
      rw [List.filter_cons_of_neg (not_isFirst_closing depth id)]
      exact ih hnodup hslots
  | case3 fresh id depth todo hfresh hnone ih =>
      obtain rfl := h.eq_root_of_firstForm? (mem_ids.mp (hslots hfresh)) hnone
      have hmarked : rootId ∉ fresh.erase rootId := hnodup.not_mem_erase
      have ih := ih (hnodup.erase rootId) (fun id hid => hslots (List.mem_of_mem_erase hid))
      rw [List.erase_of_not_mem hmarked] at ih
      rw [Todo.nodes, walkFrom, if_neg hmarked, ih]
  | case4 fresh id depth todo hfresh form hform ih =>
      have hroot : id ≠ rootId := by
        rintro rfl
        rw [firstForm?_eq_none_iff.mpr (.inr (h.root_iff.mpr rfl))] at hform
        cases hform
      have hwalked : id ∈ fresh.erase rootId := (List.mem_erase_of_ne hroot).mpr hfresh
      rw [List.filter_cons_of_pos (isFirst_of_firstForm? hform depth), List.map_cons,
        ih (hnodup.erase id) (fun id hid => hslots (List.mem_of_mem_erase hid)),
        Todo.nodes, walkFrom, if_pos hwalked, Todo.nodes_append,
        h.nodes_inside hform hroot, List.erase_comm]
  | case5 fresh id depth todo hfresh ih =>
      have hmarked : id ∉ fresh.erase rootId := fun hmem => hfresh (List.mem_of_mem_erase hmem)
      rw [Todo.nodes, walkFrom, if_neg hmarked, ih hnodup hslots]

/-- The nodes that are printed, each where its first line stands. -/
theorem walk_eq_printed : s.walk = rootId :: (s.lines.map Line.id).eraseDups := by
  have hclosed : Todo.closes ((s.children rootId).map (Todo.node · 0)) = [] := Todo.closes_map _ 0
  have hslots : (s.lines.map Line.id).filter (· ∈ s.ids) = s.lines.map Line.id := by
    refine List.filter_eq_self.mpr fun id hid => decide_eq_true ?_
    obtain ⟨line, hline, rfl⟩ := List.mem_map.mp hid
    have hmem := id_mem_of_mem_linesFrom hline
    rw [hclosed] at hmem
    exact hmem.resolve_right List.not_mem_nil
  have hopen : (Todo.closes ((s.children rootId).map (Todo.node · 0))).Disjoint s.ids := by
    rw [hclosed]
    exact List.disjoint_nil_left _
  calc s.walk
    _ = rootId :: s.walkFrom (s.ids.erase rootId) (s.children rootId) := s.walk_eq_cons
    _ = rootId :: (s.lines.filter Line.isFirst).map Line.id := by
        rw [lines, h.firsts_linesFrom s.nodup_ids (List.Subset.refl _), Todo.nodes_map]
    _ = rootId :: ((s.lines.map Line.id).filter (· ∈ s.ids)).eraseDups := by
        rw [lines, eraseDups_linesFrom s.nodup_ids hopen]
    _ = rootId :: (s.lines.map Line.id).eraseDups := by rw [hslots]

end WellSorted

/-- A walk is the depth-first order of the nodes that the root leads to. The text
of a sheet is that of the lines of the recursion, and the nodes that print them are
those of the walk without the root, each where its first line stands. -/
theorem walk_depthFirst (s : Sheet) :
    (∀ order, s.DepthFirst [] [rootId] order ↔ order = s.walk) ∧
      s.walk.Nodup ∧ (∀ id, id ∈ s.walk ↔ s.Below rootId id ∧ id < s.size) ∧
      (∀ lines, (∃ met, s.Prints 0 [] (s.children rootId) met lines) ↔ lines = s.lines) ∧
      s.print = String.join (s.lines.map Line.text) ∧
      (s.WellSorted → (s.lines.map Line.id).eraseDups = s.walk.filter (· ≠ rootId)) := by
  refine ⟨fun _ => depthFirst_walk_iff, s.nodup_walk, fun _ => mem_walk_iff,
    fun _ => prints_lines_iff, rfl, fun h => ?_⟩
  have hwalk := h.walk_eq_printed
  have hroot : rootId ∉ (s.lines.map Line.id).eraseDups :=
    (List.nodup_cons.mp (hwalk ▸ s.nodup_walk)).1
  rw [hwalk, List.filter_cons_of_neg (by simp)]
  refine (List.filter_eq_self.mpr fun id hid => decide_eq_true ?_).symm
  rintro rfl
  exact hroot hid

/-- `.a` and `@media` list each other, the latter also the root, and both the same
declaration. A rule that is not found lists itself, and the id 9 has no slot. -/
def tangledSheet : Sheet where
  nodes := #[⟨.root, none, [1, 9, 2]⟩, ⟨.rule ".a", some 0, [2, 3, 2]⟩,
    ⟨.atRule "media" "print" true, some 2, [1, 0, 3]⟩, ⟨.declaration "x" "y" false, some 1, []⟩,
    ⟨.rule ".b", none, [4, 0]⟩]
  nonempty := by decide

private theorem wellSorted_tangledSheet : tangledSheet.WellSorted where
  root_iff {id} := by
    rcases id with _ | _ | _ | _ | _ | id <;> simp [tangledSheet, content?, get?, rootId]
  children_eq_nil {id content} hcontent hleaf := by
    rcases id with _ | _ | _ | _ | _ | id <;>
      simp_all [tangledSheet, content?, get?, children] <;> cases hcontent <;> cases hleaf

theorem walk_depthFirst_tangledSheet :
    tangledSheet.WellSorted ∧ tangledSheet.walk = [0, 1, 2, 3] ∧
      tangledSheet.lines.map Line.id = [1, 2, 3, 2, 1] ∧
      (tangledSheet.lines.map Line.id).eraseDups = tangledSheet.walk.filter (· ≠ rootId) := by
  refine ⟨wellSorted_tangledSheet, ?_, ?_, ?_⟩
  · cbv
  · cbv
  · exact (walk_depthFirst tangledSheet).2.2.2.2.2 wellSorted_tangledSheet

end Unnest.Sheet
