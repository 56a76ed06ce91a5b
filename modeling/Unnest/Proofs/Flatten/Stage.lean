import Mathlib.Data.List.Nodup
import Unnest.Proofs.Flatten.Plan
import Unnest.Proofs.Sheet.Edit

/-!
# The sheet in the middle of a pass

A `Stage` describes the sheet when the rules `done` are promoted and the rules
`pruned` are removed, in terms of the sheet before the pass. The children of an
attached node `id` are then at `home s done id`: at the copy if the node is in
`done`, and where they were otherwise.

A pass changes its sheet by moving one rule to the root, which takes a stage to
the stage with this rule in `done`, and by removing one rule, which takes a
stage to the stage with this rule in `pruned`.
-/

namespace Unnest.Flatten

open Sheet

/-- Where the children of `id` are found. -/
def home (s : Sheet) (done : List NodeId) (id : NodeId) : NodeId :=
  if id ∈ done then s.size + done.idxOf id else id

/-- The sheet that `s` has become. -/
structure Stage (s : Sheet) (done pruned : List NodeId) (t : Sheet) : Prop where
  nodup : done.Nodup
  nodup_pruned : pruned.Nodup
  promoted {id : NodeId} : id ∈ done → Promoted s id
  emptied {id : NodeId} : id ∈ pruned → Emptied s (· ∈ done) id
  gone {id child : NodeId} : id ∈ pruned → child ∈ s.children id → child ∈ done ++ pruned
  size : t.size = s.size + done.length
  content? {id : NodeId} : id < s.size → t.content? id = s.content? id
  content?_copy {k : Nat} {rule : NodeId} : done[k]? = some rule →
    t.content? (s.size + k) = some (.rule (copySelector s rule))
  parent? {id : NodeId} : id < s.size →
    t.parent? id = if id ∈ done ++ pruned then none else (s.parent? id).map (home s done)
  parent?_copy {k : Nat} : k < done.length → t.parent? (s.size + k) = some rootId
  children_home {id : NodeId} : s.Below rootId id →
    t.children (home s done id) =
      (s.children id).filter (· ∉ done ++ pruned) ++
        if id = rootId then newSlots s done.length else []
  children_done {id : NodeId} : id ∈ done → t.children id = []
  children_detached {id : NodeId} : id < s.size → ¬ s.Below rootId id →
    t.children id = s.children id

/-! ## Homes -/

theorem mem_newSlots {s : Sheet} {count : Nat} {id : NodeId} :
    id ∈ newSlots s count ↔ ∃ k < count, s.size + k = id := by
  simp [newSlots]

theorem home_of_not_mem {s : Sheet} {done : List NodeId} {id : NodeId} (h : id ∉ done) :
    home s done id = id := by
  simp [home, h]

theorem home_of_getElem? {s : Sheet} {done : List NodeId} {k : Nat} {id : NodeId}
    (hnodup : done.Nodup) (h : done[k]? = some id) : home s done id = s.size + k := by
  obtain ⟨hk, rfl⟩ := List.getElem?_eq_some_iff.mp h
  simp [home, hnodup.idxOf_getElem k hk]

theorem exists_getElem?_of_mem {done : List NodeId} {id : NodeId} (h : id ∈ done) :
    ∃ k : Nat, done[k]? = some id := by
  obtain ⟨k, hk, heq⟩ := List.getElem_of_mem h
  exact ⟨k, by rw [List.getElem?_eq_getElem hk, heq]⟩

theorem home_inj {s : Sheet} {done : List NodeId} {a b : NodeId}
    (ha : a < s.size) (hb : b < s.size) (h : home s done a = home s done b) : a = b := by
  unfold home at h
  split at h
  · next hadone =>
      split at h
      · exact (List.idxOf_inj hadone).mp (Nat.add_left_cancel h)
      · exact absurd hb (by rw [← h]; exact Nat.not_lt.mpr (Nat.le_add_right _ _))
  · split at h
    · exact absurd ha (by rw [h]; exact Nat.not_lt.mpr (Nat.le_add_right _ _))
    · exact h

theorem eq_of_home_lt {s : Sheet} {done : List NodeId} {id : NodeId}
    (h : home s done id < s.size) : home s done id = id := by
  unfold home at h ⊢
  split
  · next hdone =>
      rw [if_pos hdone] at h
      exact absurd h (Nat.not_lt.mpr (Nat.le_add_right _ _))
  · rfl

theorem home_concat {s : Sheet} {done : List NodeId} {rule : NodeId} (hrule : rule ∉ done)
    (id : NodeId) :
    home s (done ++ [rule]) id =
      if id = rule then s.size + done.length else home s done id := by
  by_cases hid : id = rule
  · subst hid
    simp [home, List.idxOf_append_of_notMem hrule]
  · by_cases hdone : id ∈ done
    · simp [home, hdone, hid, List.idxOf_append_of_mem hdone]
    · simp [home, hdone, hid]

theorem newSlots_succ (s : Sheet) (count : Nat) :
    newSlots s (count + 1) = newSlots s count ++ [s.size + count] := by
  simp [newSlots, List.range_succ]

/-! ## Promoted and emptied rules -/

theorem Promoted.below {s : Sheet} (hs : s.Linked) {id : NodeId} (h : Promoted s id) :
    s.Below rootId id :=
  hs.isAttached_iff.mp h.1

theorem Promoted.isRule {s : Sheet} {id : NodeId} (h : Promoted s id) : s.isRule id = true :=
  h.2.1

theorem Emptied.attached {s : Sheet} {Moved : NodeId → Prop} {id : NodeId}
    (h : Emptied s Moved id) : s.isAttached id = true := by
  cases h
  assumption

theorem Emptied.isRule {s : Sheet} {Moved : NodeId → Prop} {id : NodeId}
    (h : Emptied s Moved id) : s.isRule id = true := by
  cases h
  assumption

theorem isDeclaration_eq_false_of_isRule {s : Sheet} {id : NodeId} (h : s.isRule id = true) :
    s.isDeclaration id = false := by
  unfold Sheet.isRule at h
  unfold Sheet.isDeclaration
  cases hcontent : s.content? id with
  | none => rfl
  | some content => cases content <;> simp_all [Content.isRule, Content.isDeclaration]

theorem Emptied.not_hasDeclarations {s : Sheet} {Moved : NodeId → Prop} {id : NodeId}
    (h : Emptied s Moved id) : s.hasDeclarations id = false := by
  cases h with
  | intro _ _ _ _ rules _ =>
      unfold Sheet.hasDeclarations
      rw [List.any_eq_false]
      intro child hchild
      simp [isDeclaration_eq_false_of_isRule (rules child hchild)]

theorem Emptied.mono {s : Sheet} {Moved Moved' : NodeId → Prop} {id : NodeId}
    (h : Emptied s Moved id) (hsub : ∀ id, Moved id → Moved' id)
    (hdecl : ∀ id, Moved' id → s.hasDeclarations id = true) : Emptied s Moved' id := by
  induction h with
  | intro attached isRule stays nonempty rules gone ih =>
      have hself := Emptied.intro attached isRule stays nonempty rules gone
      refine .intro attached isRule ?_ nonempty rules ?_
      · intro hmoved
        simpa [hself.not_hasDeclarations] using hdecl _ hmoved
      · intro child hchild hstays
        exact ih child hchild fun hmoved => hstays (hsub child hmoved)

/-! ## A stage as a sheet of its own -/

theorem Stage.start (s : Sheet) : Stage s [] [] s where
  nodup := List.nodup_nil
  nodup_pruned := List.nodup_nil
  promoted := by simp
  emptied := by simp
  gone := by simp
  size := by simp
  content? := fun _ => rfl
  content?_copy := by simp
  parent? := by
    intro id _
    have hhome : home s [] = fun id => id := by
      funext id
      simp [home]
    simp [hhome]
  parent?_copy := by simp
  children_home := by
    intro id _
    simp [home, newSlots]
  children_done := by simp
  children_detached := fun _ _ => rfl

namespace Stage

variable {s t : Sheet} {done pruned : List NodeId}
variable (hs : s.Linked) (h : Stage s done pruned t)

include h in
theorem isRule_of_gone {id : NodeId} (hid : id ∈ done ++ pruned) : s.isRule id = true := by
  rcases List.mem_append.mp hid with hdone | hpruned
  · exact (h.promoted hdone).isRule
  · exact (h.emptied hpruned).isRule

include h in
theorem ne_size {id : NodeId} (hid : id < s.size) : id ≠ t.size := by
  rw [h.size]
  exact Nat.ne_of_lt (Nat.lt_of_lt_of_le hid (Nat.le_add_right _ _))

include h in
theorem isRule_eq {id : NodeId} (hid : id < s.size) :
    t.isRule id = s.isRule id := by
  rw [Sheet.isRule, Sheet.isRule, h.content? hid]

include hs h

theorem below_of_gone {id : NodeId} (hid : id ∈ done ++ pruned) : s.Below rootId id := by
  rcases List.mem_append.mp hid with hdone | hpruned
  · exact (h.promoted hdone).below hs
  · exact hs.isAttached_iff.mp (h.emptied hpruned).attached

theorem root_not_gone : rootId ∉ done ++ pruned := by
  intro hroot
  exact hs.ne_root_of_isRule (h.isRule_of_gone hroot) rfl

theorem home_root : home s done rootId = rootId :=
  home_of_not_mem fun hroot => h.root_not_gone hs (List.mem_append_left _ hroot)

theorem home_lt {id : NodeId} (hid : s.Below rootId id) : home s done id < t.size := by
  rw [h.size]
  unfold home
  split
  · next hdone => exact Nat.add_lt_add_left (List.idxOf_lt_length_iff.mpr hdone) _
  · exact Nat.lt_of_lt_of_le (hs.lt_size hid) (Nat.le_add_right _ _)

theorem children_root :
    t.children rootId =
      (s.children rootId).filter (· ∉ done ++ pruned) ++ newSlots s done.length := by
  have := h.children_home .refl
  rwa [h.home_root hs, if_pos rfl] at this

theorem content?_home {id : NodeId} {content : Content} (hid : s.Below rootId id)
    (hcontent : t.content? (home s done id) = some content)
    (hchildren : t.children (home s done id) ≠ []) : content.isContainer = true := by
  by_cases hdone : id ∈ done
  · obtain ⟨k, hk⟩ := exists_getElem?_of_mem hdone
    rw [home_of_getElem? h.nodup hk, h.content?_copy hk] at hcontent
    cases hcontent
    rfl
  · rw [h.children_home hid] at hchildren
    rw [home_of_not_mem hdone, h.content? (hs.lt_size hid)] at hcontent
    by_cases hroot : id = rootId
    · rw [hroot, hs.content?_root] at hcontent
      cases hcontent
      rfl
    · apply (hs.agreesAt hid).isContainer hcontent
      intro hnil
      simp [hnil, hroot] at hchildren

theorem exists_home {id : NodeId} (hid : t.Below rootId id) :
    ∃ origin, s.Below rootId origin ∧ home s done origin = id := by
  induction hid with
  | refl => exact ⟨rootId, .refl, h.home_root hs⟩
  | @child id child _ hmem ih =>
      obtain ⟨origin, horigin, rfl⟩ := ih
      rw [h.children_home horigin, List.mem_append] at hmem
      rcases hmem with hstay | hnew
      · obtain ⟨hchild, hgone⟩ := List.mem_filter.mp hstay
        refine ⟨child, horigin.child hchild, home_of_not_mem ?_⟩
        simp_all
      · split at hnew
        · obtain ⟨k, hk, rfl⟩ := mem_newSlots.mp hnew
          have hdone : done[k] ∈ done := List.getElem_mem hk
          exact ⟨done[k], h.below_of_gone hs (List.mem_append_left _ hdone),
            home_of_getElem? h.nodup (List.getElem?_eq_getElem hk)⟩
        · simp at hnew

theorem agreesAt_home {id : NodeId} (hid : s.Below rootId id) :
    t.AgreesAt (home s done id) := by
  refine ⟨?_, ?_, fun hcontent hchildren => h.content?_home hs hid hcontent hchildren⟩
  · rw [h.children_home hid]
    refine List.Nodup.append ((hs.agreesAt hid).nodup.filter _) ?_ ?_
    · split
      · exact List.nodup_range.map fun _ _ => Nat.add_left_cancel
      · exact List.nodup_nil
    · intro child hstay hnew
      split at hnew
      · obtain ⟨k, hk, rfl⟩ := mem_newSlots.mp hnew
        have := hs.lt_size (hid.child (List.mem_filter.mp hstay).1)
        exact absurd this (Nat.not_lt.mpr (Nat.le_add_right _ _))
      · simp at hnew
  · intro child hmem
    rw [h.children_home hid, List.mem_append] at hmem
    rcases hmem with hstay | hnew
    · obtain ⟨hchild, hgone⟩ := List.mem_filter.mp hstay
      have hgone : child ∉ done ++ pruned := by simpa using hgone
      rw [h.parent? (hs.lt_size (hid.child hchild)), if_neg hgone,
        (hs.agreesAt hid).parent?_child hchild]
      rfl
    · split at hnew
      · next hroot =>
          obtain ⟨k, hk, rfl⟩ := mem_newSlots.mp hnew
          rw [h.parent?_copy hk, hroot, h.home_root hs]
      · simp at hnew

theorem mem_children {id parent : NodeId} (hparent : t.parent? id = some parent) :
    id ∈ t.children parent := by
  rcases Nat.lt_or_ge id s.size with hold | hnew
  · rw [h.parent? hold] at hparent
    split at hparent
    · cases hparent
    · next hgone =>
        obtain ⟨origin, horigin, rfl⟩ := Option.map_eq_some_iff.mp hparent
        have hmem := hs.mem_children horigin
        by_cases hbelow : s.Below rootId origin
        · rw [h.children_home hbelow]
          exact List.mem_append_left _ (List.mem_filter.mpr ⟨hmem, by simpa using hgone⟩)
        · have hdone : origin ∉ done := fun hdone =>
            hbelow (h.below_of_gone hs (List.mem_append_left _ hdone))
          rw [home_of_not_mem hdone,
            h.children_detached (lt_size_of_mem_children hmem) hbelow]
          exact hmem
  · have hk : id - s.size < done.length := by
      have := lt_size_of_parent? hparent
      rw [h.size] at this
      exact Nat.sub_lt_left_of_lt_add hnew this
    have hid : s.size + (id - s.size) = id := Nat.add_sub_cancel' hnew
    have := h.parent?_copy hk
    rw [hid, hparent] at this
    cases this
    rw [h.children_root hs]
    exact List.mem_append_right _ (mem_newSlots.mpr ⟨_, hk, hid⟩)

theorem linked : t.Linked where
  content?_root := by
    rw [h.content? (hs.lt_size .refl), hs.content?_root]
  parent?_root := by
    rw [h.parent? (hs.lt_size .refl), if_neg (h.root_not_gone hs), hs.parent?_root]
    rfl
  agreesAt := by
    intro id hid
    obtain ⟨origin, horigin, rfl⟩ := h.exists_home hs hid
    exact h.agreesAt_home hs horigin
  mem_children := h.mem_children hs

/-- What is not removed stays attached, at its home. -/
theorem below_home {id : NodeId} (hid : s.Below rootId id) (hpruned : id ∉ pruned) :
    t.Below rootId (home s done id) := by
  have hroot : t.Below rootId rootId := .refl
  induction hid with
  | refl =>
      rw [h.home_root hs]
      exact hroot
  | @child parent id hparent hmem ih =>
      by_cases hdone : id ∈ done
      · obtain ⟨k, hk⟩ := exists_getElem?_of_mem hdone
        rw [home_of_getElem? h.nodup hk]
        apply hroot.child
        rw [h.children_root hs]
        exact List.mem_append_right _
          (mem_newSlots.mpr ⟨k, (List.getElem?_eq_some_iff.mp hk).1, rfl⟩)
      · have hgone : id ∉ done ++ pruned := by simp [hdone, hpruned]
        have hstays : parent ∉ pruned := fun hgoes => hgone (h.gone hgoes hmem)
        rw [home_of_not_mem hdone]
        apply (ih hstays).child
        rw [h.children_home hparent]
        exact List.mem_append_left _ (List.mem_filter.mpr ⟨hmem, by simpa using hgone⟩)

theorem isAttached_iff {id : NodeId} (hid : id < s.size) :
    t.isAttached id = true ↔ s.isAttached id = true ∧ id ∉ done ++ pruned := by
  rw [(h.linked hs).isAttached_iff, hs.isAttached_iff]
  constructor
  · intro hbelow
    obtain ⟨origin, horigin, rfl⟩ := h.exists_home hs hbelow
    have hhome := eq_of_home_lt hid
    rw [hhome]
    refine ⟨horigin, fun hgone => ?_⟩
    -- What is gone has no parent, but is not the root.
    have hroot := hs.ne_root_of_isRule (h.isRule_of_gone hgone)
    rw [hhome] at hbelow
    obtain ⟨parent, hparent, -⟩ := (h.linked hs).exists_parent? hbelow hroot
    rw [h.parent? (hs.lt_size horigin), if_pos hgone] at hparent
    cases hparent
  · rintro ⟨hbelow, hgone⟩
    rw [List.mem_append, not_or] at hgone
    rw [← home_of_not_mem (s := s) hgone.1]
    exact h.below_home hs hbelow hgone.2

theorem isAttached_iff_of_size_le {id : NodeId} (hid : s.size ≤ id) :
    t.isAttached id = true ↔ id < t.size := by
  rw [(h.linked hs).isAttached_iff]
  constructor
  · exact (h.linked hs).lt_size
  · intro hslot
    obtain ⟨k, rfl⟩ := Nat.exists_eq_add_of_le hid
    rw [h.size] at hslot
    have hroot : t.Below rootId rootId := .refl
    exact hroot.child (by
      rw [h.children_root hs]
      exact List.mem_append_right _ (mem_newSlots.mpr ⟨k, Nat.lt_of_add_lt_add_left hslot, rfl⟩))

end Stage

end Unnest.Flatten
