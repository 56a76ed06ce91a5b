import Unnest.Proofs.Sheet.Linked
import Unnest.Sheet.Print

/-!
# Printing as a recursion

`Prints` says by recursion which lines a row of nodes gives: a block is opened,
the children are printed one level deeper, and the block is closed, before the
next node of the row comes. The nodes that were met are handed on from each node
to the next. `lines` keeps a row of what is left to be done in place of the
recursion, and prints the same.
-/

namespace Unnest.Sheet

/-- The row of ids prints the lines, `depth` levels deep. The nodes of `met` were
met before, those of `met'` are met when all is printed. -/
inductive Prints (s : Sheet) :
    (depth : Nat) → (met ids met' : List NodeId) → (lines : List Line) → Prop
  | nil {depth : Nat} {met : List NodeId} : Prints s depth met [] met []
  | skip {depth : Nat} {met ids met' : List NodeId} {lines : List Line} {id : NodeId} :
      s.size ≤ id ∨ id ∈ met → Prints s depth met ids met' lines →
        Prints s depth met (id :: ids) met' lines
  | root {depth : Nat} {met ids met' : List NodeId} {lines : List Line} {id : NodeId} :
      id ∉ met → s.content? id = some .root → Prints s depth (met ++ [id]) ids met' lines →
        Prints s depth met (id :: ids) met' lines
  | statement {depth : Nat} {met ids met' : List NodeId} {lines : List Line} {id : NodeId}
      {content : Content} :
      id ∉ met → s.content? id = some content → content ≠ .root →
        content.opensBlock (!(s.children id).isEmpty) = false →
          Prints s depth (met ++ [id]) ids met' lines →
            Prints s depth met (id :: ids) met' (⟨depth, id, .statement content⟩ :: lines)
  | emptyBlock {depth : Nat} {met ids met' : List NodeId} {lines : List Line} {id : NodeId}
      {content : Content} :
      id ∉ met → s.content? id = some content → content.opensBlock false = true →
        s.children id = [] → Prints s depth (met ++ [id]) ids met' lines →
          Prints s depth met (id :: ids) met' (⟨depth, id, .emptyBlock content⟩ :: lines)
  | block {depth : Nat} {met ids met' met'' : List NodeId} {below beside : List Line}
      {id : NodeId} {content : Content} :
      id ∉ met → s.content? id = some content → content.opensBlock true = true →
        s.children id ≠ [] → Prints s (depth + 1) (met ++ [id]) (s.children id) met' below →
          Prints s depth met' ids met'' beside →
            Prints s depth met (id :: ids) met''
              (⟨depth, id, .opening content⟩ :: (below ++ ⟨depth, id, .closing⟩ :: beside))

variable {s : Sheet} {met fresh : List NodeId}

/-- The ids of `fresh` are those with a slot that were not met. -/
structure Unmet (s : Sheet) (met fresh : List NodeId) : Prop where
  nodup : fresh.Nodup
  mem_iff {id : NodeId} : id ∈ fresh ↔ id < s.size ∧ id ∉ met

theorem unmet_ids (s : Sheet) : s.Unmet [] s.ids where
  nodup := s.nodup_ids
  mem_iff := by simp

theorem Unmet.erase (h : s.Unmet met fresh) (id : NodeId) :
    s.Unmet (met ++ [id]) (fresh.erase id) where
  nodup := h.nodup.erase id
  mem_iff {other} := by
    rw [h.nodup.mem_erase_iff, h.mem_iff, List.mem_append, List.mem_singleton, not_or]
    exact and_left_comm.trans (and_congr_right' and_comm)

theorem Unmet.not_mem_iff (h : s.Unmet met fresh) {id : NodeId} :
    id ∉ fresh ↔ s.size ≤ id ∨ id ∈ met := by
  rw [h.mem_iff, not_and_or, Nat.not_lt, not_not]

/-! ## The first line of a node -/

private theorem firstForm?_of_content? {id : NodeId} {content : Content}
    (h : s.content? id = some content) (hroot : content ≠ .root) :
    s.firstForm? id =
      if content.opensBlock (!(s.children id).isEmpty) then
        some (if (s.children id).isEmpty then .emptyBlock content else .opening content)
      else some (.statement content) := by
  rw [firstForm?, h]
  cases content with
  | root => exact absurd rfl hroot
  | rule | atRule | declaration | comment => rfl

private theorem ne_root_of_opensBlock {content : Content} {hasChildren : Bool}
    (h : content.opensBlock hasChildren = true) : content ≠ .root := by
  rintro rfl
  cases h

private theorem linesFrom_node {id : NodeId} {form : Line.Form} (hfresh : id ∈ fresh)
    (hform : s.firstForm? id = some form) (depth : Nat) (todo : List Todo) :
    s.linesFrom fresh (.node id depth :: todo) =
      ⟨depth, id, form⟩ :: s.linesFrom (fresh.erase id) (s.inside id depth form ++ todo) := by
  rw [linesFrom, if_pos hfresh, hform]

/-! ## The row in place of the recursion -/

/-- What the recursion prints comes first among the lines for a row that begins
with the same nodes. -/
private theorem Prints.linesFrom_eq {depth : Nat} {ids met' : List NodeId} {lines : List Line}
    (h : s.Prints depth met ids met' lines) (hfresh : s.Unmet met fresh) (todo : List Todo) :
    ∃ fresh', s.Unmet met' fresh' ∧
      s.linesFrom fresh (ids.map (Todo.node · depth) ++ todo) =
        lines ++ s.linesFrom fresh' todo := by
  induction h generalizing fresh todo with
  | nil => exact ⟨fresh, hfresh, rfl⟩
  | skip hskip _ ih =>
      rw [List.map_cons, List.cons_append, linesFrom, if_neg (hfresh.not_mem_iff.mpr hskip)]
      exact ih hfresh todo
  | @root _ _ _ _ _ id hmet hcontent _ ih =>
      have hid : id ∈ fresh := hfresh.mem_iff.mpr ⟨lt_size_of_content? hcontent, hmet⟩
      have hnone : s.firstForm? id = none := by rw [firstForm?, hcontent]
      rw [List.map_cons, List.cons_append, linesFrom, if_pos hid, hnone]
      exact ih (hfresh.erase id) todo
  | @statement _ _ _ _ _ id _ hmet hcontent hroot hopens _ ih =>
      have hid : id ∈ fresh := hfresh.mem_iff.mpr ⟨lt_size_of_content? hcontent, hmet⟩
      have hform := firstForm?_of_content? hcontent hroot
      rw [hopens, if_neg Bool.false_ne_true] at hform
      obtain ⟨fresh', hfresh', heq⟩ := ih (hfresh.erase id) todo
      refine ⟨fresh', hfresh', ?_⟩
      rw [List.cons_append, ← heq]
      exact linesFrom_node hid hform _ _
  | @emptyBlock _ _ _ _ _ id _ hmet hcontent hopens hnil _ ih =>
      have hid : id ∈ fresh := hfresh.mem_iff.mpr ⟨lt_size_of_content? hcontent, hmet⟩
      have hform := firstForm?_of_content? hcontent (ne_root_of_opensBlock hopens)
      rw [hnil, List.isEmpty_nil, Bool.not_true, hopens, if_pos rfl, if_pos rfl] at hform
      obtain ⟨fresh', hfresh', heq⟩ := ih (hfresh.erase id) todo
      refine ⟨fresh', hfresh', ?_⟩
      rw [List.cons_append, ← heq]
      exact linesFrom_node hid hform _ _
  | @block depth _ ids _ _ below beside id content hmet hcontent hopens hne _ _ ihBelow ihBeside =>
      have hid : id ∈ fresh := hfresh.mem_iff.mpr ⟨lt_size_of_content? hcontent, hmet⟩
      have hform := firstForm?_of_content? hcontent (ne_root_of_opensBlock hopens)
      rw [List.isEmpty_eq_false_iff.mpr hne, Bool.not_false, hopens, if_pos rfl,
        if_neg Bool.false_ne_true] at hform
      obtain ⟨fresh', hfresh', hbelow⟩ := ihBelow (hfresh.erase id)
        (.close id depth :: (ids.map (Todo.node · depth) ++ todo))
      obtain ⟨fresh'', hfresh'', hbeside⟩ := ihBeside hfresh' todo
      refine ⟨fresh'', hfresh'', ?_⟩
      rw [List.map_cons, List.cons_append, linesFrom_node hid hform, inside, List.append_assoc,
        List.singleton_append, hbelow, linesFrom, hbeside]
      simp

/-- A node without a block for its children prints one line, or none if it is the root. -/
private theorem Prints.exists_cons {depth : Nat} {id : NodeId} {ids met' : List NodeId}
    {beside : List Line} {content : Content} (hmet : id ∉ met)
    (hcontent : s.content? id = some content)
    (hblock : ¬ (content.opensBlock (!(s.children id).isEmpty) = true ∧ s.children id ≠ []))
    (hbeside : s.Prints depth (met ++ [id]) ids met' beside) :
    ∃ lines, s.Prints depth met (id :: ids) met' lines := by
  by_cases hroot : content = .root
  · exact ⟨_, .root hmet (hroot ▸ hcontent) hbeside⟩
  · cases hopens : content.opensBlock (!(s.children id).isEmpty) with
    | false => exact ⟨_, .statement hmet hcontent hroot hopens hbeside⟩
    | true =>
        have hnil : s.children id = [] := by simpa [hopens] using hblock
        rw [hnil] at hopens
        exact ⟨_, .emptyBlock hmet hcontent hopens hnil hbeside⟩

/-- The recursion comes to an end: each step down or along has fewer nodes left
to meet, or fewer ids in the row. -/
private theorem exists_prints {met fresh : List NodeId} (hfresh : s.Unmet met fresh) (depth : Nat)
    (ids : List NodeId) :
    ∃ met' fresh' lines, s.Prints depth met ids met' lines ∧ s.Unmet met' fresh' ∧
      fresh'.length ≤ fresh.length := by
  cases ids with
  | nil => exact ⟨met, fresh, [], .nil, hfresh, Nat.le_refl _⟩
  | cons id ids =>
      by_cases hid : id ∈ fresh
      · obtain ⟨hslot, hmet⟩ := hfresh.mem_iff.mp hid
        obtain ⟨content, hcontent⟩ := exists_content? hslot
        have hshorter := length_erase_lt hid
        by_cases hblock : content.opensBlock (!(s.children id).isEmpty) = true ∧ s.children id ≠ []
        · obtain ⟨hopens, hne⟩ := hblock
          rw [List.isEmpty_eq_false_iff.mpr hne, Bool.not_false] at hopens
          obtain ⟨met', fresh', below, hbelow, hfresh', hle⟩ :=
            exists_prints (hfresh.erase id) (depth + 1) (s.children id)
          obtain ⟨met'', fresh'', beside, hbeside, hfresh'', hle'⟩ :=
            exists_prints hfresh' depth ids
          exact ⟨met'', fresh'', _, .block hmet hcontent hopens hne hbelow hbeside, hfresh'',
            by omega⟩
        · obtain ⟨met', fresh', beside, hbeside, hfresh', hle⟩ :=
            exists_prints (hfresh.erase id) depth ids
          obtain ⟨lines, hlines⟩ := hbeside.exists_cons hmet hcontent hblock
          exact ⟨met', fresh', lines, hlines, hfresh', by omega⟩
      · obtain ⟨met', fresh', lines, hlines, hfresh', hle⟩ := exists_prints hfresh depth ids
        exact ⟨met', fresh', lines, .skip (hfresh.not_mem_iff.mp hid) hlines, hfresh', hle⟩
termination_by (fresh.length, ids.length)

/-- The lines of a sheet are what the recursion prints, at depth zero and from
the children of the root on. -/
theorem prints_lines_iff {lines : List Line} :
    (∃ met', s.Prints 0 [] (s.children rootId) met' lines) ↔ lines = s.lines := by
  have hlines {met' : List NodeId} {printed : List Line}
      (h : s.Prints 0 [] (s.children rootId) met' printed) : printed = s.lines := by
    obtain ⟨fresh', -, heq⟩ := h.linesFrom_eq s.unmet_ids []
    rw [List.append_nil, linesFrom, List.append_nil] at heq
    exact heq.symm
  constructor
  · rintro ⟨met', h⟩
    exact hlines h
  · rintro rfl
    obtain ⟨met', -, printed, h, -⟩ := exists_prints s.unmet_ids 0 (s.children rootId)
    exact ⟨met', hlines h ▸ h⟩

end Unnest.Sheet
