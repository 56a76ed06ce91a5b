import Unnest.Proofs.Flatten.Stage
import Unnest.Proofs.Sheet.Promotion

/-!
# The two moves of a pass

From a stage, promoting a rule gives the stage with the rule in `done`, and
detaching an emptied rule gives the stage with the rule in `pruned`.
-/

namespace Unnest.Flatten

open Sheet

theorem not_mem_newSlots {s : Sheet} {count : Nat} {id : NodeId} (h : id < s.size) :
    id ∉ newSlots s count := by
  intro hmem
  obtain ⟨k, _, rfl⟩ := mem_newSlots.mp hmem
  exact absurd h (Nat.not_lt.mpr (Nat.le_add_right _ _))

private theorem filter_ne_of_not_mem {ids : List NodeId} {id : NodeId} (h : id ∉ ids) :
    ids.filter (· != id) = ids := by
  rw [List.filter_eq_self]
  intro other hother
  have hne : other ≠ id := fun heq => h (heq ▸ hother)
  simpa using hne

private theorem filter_gone_insert (ids : List NodeId) {gone gone' : List NodeId} {rule : NodeId}
    (h : ∀ id, id ∈ gone' ↔ id ∈ gone ∨ id = rule) :
    (ids.filter (· ∉ gone)).filter (· != rule) = ids.filter (· ∉ gone') := by
  rw [List.filter_filter]
  apply List.filter_congr
  intro child _
  by_cases hchild : child = rule <;> simp [h, hchild]

namespace Stage

variable {s t t' : Sheet} {done pruned : List NodeId}
variable (hs : s.Linked) (h : Stage s done pruned t)
include hs h

theorem mem_children_home_iff {id child : NodeId} (hid : s.Below rootId id)
    (hchild : child < s.size) :
    child ∈ t.children (home s done id) ↔ s.parent? child = some id ∧ child ∉ done ++ pruned := by
  have hnew : child ∉ newSlots s done.length := not_mem_newSlots hchild
  rw [h.children_home hid, List.mem_append, List.mem_filter, hs.mem_children_iff hid]
  split <;> simp [hnew]

theorem parent?_eq_home_iff {id parent : NodeId} (hid : id < s.size) (hgone : id ∉ done ++ pruned)
    (hparent : s.Below rootId parent) :
    t.parent? id = some (home s done parent) ↔ s.parent? id = some parent := by
  rw [h.parent? hid, if_neg hgone, Option.map_eq_some_iff]
  constructor
  · rintro ⟨actual, hactual, heq⟩
    have hslot := lt_size_of_mem_children (hs.mem_children hactual)
    rw [hactual, home_inj hslot (hs.lt_size hparent) heq]
  · intro hparent
    exact ⟨parent, hparent, rfl⟩

theorem exists_chain_of_parent? {id parent : NodeId} {chain : List NodeId}
    (hid : s.Below rootId id) (hgone : id ∉ done ++ pruned) (hparent : s.parent? id = some parent)
    (hchain : t.Chain id chain) :
    ∃ rest, chain = home s done parent :: rest ∧ t.Chain (home s done parent) rest := by
  have hhome := (h.parent?_eq_home_iff hs (hs.lt_size hid) hgone
    (hs.below_parent hid hparent)).mpr hparent
  exact hchain.exists_of_parent? hhome

theorem parent_not_pruned {id parent : NodeId} (hgone : id ∉ done ++ pruned)
    (hparent : s.parent? id = some parent) : parent ∉ pruned :=
  fun hmem => hgone (h.gone hmem (hs.mem_children hparent))

theorem home_eq_root_iff {id : NodeId} (hid : s.Below rootId id) :
    home s done id = rootId ↔ id = rootId := by
  constructor
  · intro heq
    rw [← h.home_root hs] at heq
    exact home_inj (hs.lt_size hid) (hs.lt_size .refl) heq
  · rintro rfl
    exact h.home_root hs

omit hs in
theorem not_pruned_of_promoted {rule : NodeId} (hrule : Promoted s rule) : rule ∉ pruned := by
  intro hpruned
  have := (h.emptied hpruned).not_hasDeclarations
  rw [hrule.2.2.2] at this
  cases this

omit hs in
theorem not_gone_of_promoted {rule : NodeId} (hrule : Promoted s rule) (hdone : rule ∉ done) :
    rule ∉ done ++ pruned := by
  simp [hdone, h.not_pruned_of_promoted hrule]

/-! ## Promoting a rule -/

section promote

variable {rule : NodeId} {selector : String}
variable (hrule : Promoted s rule) (hdone : rule ∉ done)
variable (ht : Promotion t rule selector t')
include hrule hdone ht

private theorem parent?_promote {id : NodeId} (hid : id < s.size) :
    t'.parent? id =
      if id ∈ (done ++ [rule]) ++ pruned then none
      else (s.parent? id).map (home s (done ++ [rule])) := by
  have hbelow := hrule.below hs
  have hnew := h.ne_size hid
  rw [ht.parent?]
  by_cases heq : id = rule
  · simp [heq]
  · by_cases hgone : id ∈ done ++ pruned
    · have hnone : t.parent? id = none := by rw [h.parent? hid, if_pos hgone]
      have hgone' : id ∈ (done ++ [rule]) ++ pruned := by simp_all
      rw [if_neg heq, if_neg hnew, hnone, if_pos hgone']
      rfl
    · have hgone' : id ∉ (done ++ [rule]) ++ pruned := by simp_all
      have hiff := h.parent?_eq_home_iff hs hid hgone hbelow
      rw [home_of_not_mem hdone] at hiff
      rw [if_neg heq, if_neg hnew, if_neg hgone', if_congr hiff rfl rfl, h.parent? hid,
        if_neg hgone]
      cases hparent : s.parent? id with
      | none => simp
      | some parent =>
          simp only [Option.map_some, home_concat hdone, h.size]
          by_cases hmoved : parent = rule <;> simp [hmoved]

private theorem children_promote {id : NodeId} (hid : s.Below rootId id) :
    t'.children (home s (done ++ [rule]) id) =
      (s.children id).filter (· ∉ (done ++ [rule]) ++ pruned) ++
        if id = rootId then newSlots s (done ++ [rule]).length else [] := by
  have hbelow := hrule.below hs
  have hgone := h.not_gone_of_promoted hrule hdone
  have hinsert : ∀ id, id ∈ (done ++ [rule]) ++ pruned ↔ id ∈ done ++ pruned ∨ id = rule := by
    intro id
    simp only [List.mem_append, List.mem_singleton]
    tauto
  rw [home_concat hdone, ht.children, ← filter_gone_insert _ hinsert]
  by_cases heq : id = rule
  · subst heq
    have hchildren := h.children_home hid
    rw [home_of_not_mem hdone, if_neg (hs.ne_root_of_isRule hrule.isRule),
      List.append_nil] at hchildren
    have hself : id ∉ (s.children id).filter (· ∉ done ++ pruned) := fun hmem =>
      hs.not_mem_children_self hbelow (List.mem_filter.mp hmem).1
    rw [if_pos rfl, if_pos h.size.symm, hchildren,
      if_neg (hs.ne_root_of_isRule hrule.isRule), List.append_nil, filter_ne_of_not_mem hself]
  · have hnew : home s done id ≠ t.size := Nat.ne_of_lt (h.home_lt hs hid)
    have hold : home s done id ≠ rule := by
      intro hhome
      rw [← home_of_not_mem hdone (s := s)] at hhome
      exact heq (home_inj (hs.lt_size hid) (hs.lt_size hbelow) hhome)
    -- Detaching filters the list of the parent only, but no other has the rule.
    have hfilter : (if t.parent? rule = some (home s done id) then
        (t.children (home s done id)).filter (· != rule) else t.children (home s done id)) =
          (t.children (home s done id)).filter (· != rule) := by
      split
      · rfl
      · next hparent =>
          refine (filter_ne_of_not_mem fun hmem => hparent ?_).symm
          rw [h.mem_children_home_iff hs hid (hs.lt_size hbelow)] at hmem
          exact (h.parent?_eq_home_iff hs (hs.lt_size hbelow) hgone hid).mpr hmem.1
    have hslots : (newSlots s done.length).filter (· != rule) = newSlots s done.length :=
      filter_ne_of_not_mem (not_mem_newSlots (hs.lt_size hbelow))
    rw [if_neg heq, if_neg hnew, if_neg hold, hfilter, h.children_home hid,
      if_congr (h.home_eq_root_iff hs hid) rfl rfl, List.filter_append, List.append_assoc]
    congr 1
    split
    · rw [hslots, List.length_append, List.length_singleton, newSlots_succ, h.size]
    · rfl

omit hs hrule hdone in
private theorem content?_copy_promote (hselector : selector = copySelector s rule) {k : Nat}
    {other : NodeId} (hk : (done ++ [rule])[k]? = some other) :
    t'.content? (s.size + k) = some (.rule (copySelector s other)) := by
  rw [ht.content?, h.size]
  by_cases hlast : k = done.length
  · subst hlast
    simp only [List.getElem?_concat_length, Option.some.injEq] at hk
    rw [if_pos rfl, hselector, hk]
  · have hlt : k < (done ++ [rule]).length := (List.getElem?_eq_some_iff.mp hk).1
    have hlt : k < done.length := by
      simp only [List.length_append, List.length_singleton] at hlt
      omega
    rw [List.getElem?_append_left hlt] at hk
    rw [if_neg (by simpa using hlast), h.content?_copy hk]

omit hdone in
private theorem parent?_copy_promote {k : Nat} (hk : k < (done ++ [rule]).length) :
    t'.parent? (s.size + k) = some rootId := by
  have hne : s.size + k ≠ rule := fun heq =>
    Nat.not_lt.mpr (Nat.le_add_right _ k) (heq ▸ hs.lt_size (hrule.below hs))
  rw [ht.parent?, if_neg hne, h.size]
  by_cases hlast : k = done.length
  · simp [hlast]
  · have hlt : k < done.length := by
      simp only [List.length_append, List.length_singleton] at hk
      omega
    have hroot : rule ≠ rootId := hs.ne_root_of_isRule hrule.isRule
    rw [if_neg (by simpa using hlast), h.parent?_copy hlt, if_neg (by simpa using hroot.symm)]

omit hdone in
private theorem children_done_promote {id : NodeId} (hid : id ∈ done ++ [rule]) :
    t'.children id = [] := by
  rw [ht.children]
  rcases List.mem_append.mp hid with hid | hid
  · have hbelow := h.below_of_gone hs (List.mem_append_left _ hid)
    have hroot := hs.ne_root_of_isRule (h.promoted hid).isRule
    rw [if_neg (h.ne_size (hs.lt_size hbelow)), h.children_done hid]
    simp [hroot]
  · have hbelow := hrule.below hs
    rw [List.mem_singleton.mp hid, if_neg (h.ne_size (hs.lt_size hbelow)), if_pos rfl]

private theorem children_detached_promote {id : NodeId} (hid : id < s.size)
    (hdetached : ¬ s.Below rootId id) : t'.children id = s.children id := by
  have hbelow := hrule.below hs
  have hne : id ≠ rule := fun heq => hdetached (heq ▸ hbelow)
  have hroot : id ≠ rootId := fun heq => hdetached (heq ▸ .refl)
  have hparent : t.parent? rule ≠ some id := by
    rw [h.parent? (hs.lt_size hbelow), if_neg (h.not_gone_of_promoted hrule hdone)]
    intro hhome
    obtain ⟨parent, hparent, rfl⟩ := Option.map_eq_some_iff.mp hhome
    rw [eq_of_home_lt hid] at hdetached
    exact hdetached (hs.below_parent hbelow hparent)
  rw [ht.children, if_neg (h.ne_size hid), if_neg hne, if_neg hparent, if_neg hroot,
    List.append_nil, h.children_detached hid hdetached]

/-- Promoting a rule takes a stage to the one with the rule among the done. -/
theorem promote (hselector : selector = copySelector s rule) :
    Stage s (done ++ [rule]) pruned t' where
  nodup := by
    rw [List.nodup_append]
    refine ⟨h.nodup, by simp, ?_⟩
    rintro id hid _ hother rfl
    exact hdone (List.mem_singleton.mp hother ▸ hid)
  nodup_pruned := h.nodup_pruned
  promoted := by
    intro id hid
    rcases List.mem_append.mp hid with hid | hid
    · exact h.promoted hid
    · exact List.mem_singleton.mp hid ▸ hrule
  emptied := by
    intro id hid
    refine (h.emptied hid).mono (fun id hid => List.mem_append_left _ hid) ?_
    intro id hid
    rcases List.mem_append.mp hid with hid | hid
    · exact (h.promoted hid).2.2.2
    · exact List.mem_singleton.mp hid ▸ hrule.2.2.2
  gone := by
    intro id child hid hchild
    have := h.gone hid hchild
    simp only [List.mem_append] at this ⊢
    tauto
  size := by
    rw [ht.size, h.size, List.length_append]
    rfl
  content? := by
    intro id hid
    rw [ht.content?, if_neg (h.ne_size hid), h.content? hid]
  content?_copy := fun hk => content?_copy_promote h ht hselector hk
  parent? := fun hid => parent?_promote hs h hrule hdone ht hid
  parent?_copy := fun hk => parent?_copy_promote hs h hrule ht hk
  children_home := fun hid => children_promote hs h hrule hdone ht hid
  children_done := fun hid => children_done_promote hs h hrule ht hid
  children_detached := fun hid hdetached =>
    children_detached_promote hs h hrule hdone ht hid hdetached

end promote

/-! ## Removing a rule -/

section prune

variable {rule : NodeId} (hemptied : Emptied s (· ∈ done) rule) (hrule : rule ∉ pruned)
variable (ht : t.detach rule = .ok t')
include hemptied hrule

omit hs h in
private theorem not_gone_of_emptied : rule ∉ done ++ pruned := by
  have hdone : rule ∉ done := by
    cases hemptied
    assumption
  simp [hdone, hrule]

private theorem exists_parent?_of_emptied :
    ∃ parent, s.parent? rule = some parent ∧ s.Below rootId parent ∧
      t.parent? rule = some (home s done parent) := by
  have hbelow := hs.isAttached_iff.mp hemptied.attached
  have hgone := not_gone_of_emptied hemptied hrule
  obtain ⟨parent, hparent, hparentBelow⟩ :=
    hs.exists_parent? hbelow (hs.ne_root_of_isRule hemptied.isRule)
  exact ⟨parent, hparent, hparentBelow,
    (h.parent?_eq_home_iff hs (hs.lt_size hbelow) hgone hparentBelow).mpr hparent⟩

include ht

private theorem children_prune {id : NodeId} (hid : s.Below rootId id) :
    t'.children (home s done id) =
      (s.children id).filter (· ∉ done ++ (pruned ++ [rule])) ++
        if id = rootId then newSlots s done.length else [] := by
  obtain ⟨parent, hparent, hparentBelow, hhome⟩ :=
    exists_parent?_of_emptied hs h hemptied hrule
  have hinsert : ∀ id, id ∈ done ++ (pruned ++ [rule]) ↔ id ∈ done ++ pruned ∨ id = rule := by
    simp [or_assoc]
  have hslots : (newSlots s done.length).filter (· != rule) = newSlots s done.length :=
    filter_ne_of_not_mem (not_mem_newSlots (lt_size_of_parent? hparent))
  rw [children_detach ht, hhome, ← filter_gone_insert _ hinsert]
  by_cases heq : parent = id
  · subst heq
    rw [if_pos rfl, h.children_home hid, List.filter_append]
    congr 1
    split
    · exact hslots
    · rfl
  · have hne : some (home s done parent) ≠ some (home s done id) := fun hsome =>
      heq (home_inj (hs.lt_size hparentBelow) (hs.lt_size hid) (Option.some.inj hsome))
    have hmem : rule ∉ (s.children id).filter (· ∉ done ++ pruned) := by
      intro hmem
      rw [(hs.agreesAt hid).parent?_child (List.mem_filter.mp hmem).1] at hparent
      exact heq (Option.some.inj hparent).symm
    rw [if_neg hne, h.children_home hid, filter_ne_of_not_mem hmem]

private theorem children_detached_prune {id : NodeId} (hid : id < s.size)
    (hdetached : ¬ s.Below rootId id) : t'.children id = s.children id := by
  obtain ⟨parent, -, hparentBelow, hhome⟩ := exists_parent?_of_emptied hs h hemptied hrule
  have hne : t.parent? rule ≠ some id := by
    rw [hhome]
    intro hsome
    rw [← Option.some.inj hsome] at hid hdetached
    rw [eq_of_home_lt hid] at hdetached
    exact hdetached hparentBelow
  rw [children_detach ht, if_neg hne, h.children_detached hid hdetached]

omit hs hemptied hrule in
private theorem parent?_copy_prune (hlt : rule < s.size) {k : Nat} (hk : k < done.length) :
    t'.parent? (s.size + k) = some rootId := by
  have hne : s.size + k ≠ rule := fun heq =>
    Nat.not_lt.mpr (Nat.le_add_right _ k) (heq ▸ hlt)
  rw [parent?_detach ht, if_neg hne, h.parent?_copy hk]

/-- Detaching a rule whose children are gone takes a stage to the one with the
rule among the pruned. -/
theorem prune (hchildren : ∀ child ∈ s.children rule, child ∈ done ++ pruned) :
    Stage s done (pruned ++ [rule]) t' where
  nodup := h.nodup
  nodup_pruned := by
    rw [← List.concat_eq_append]
    exact h.nodup_pruned.concat hrule
  promoted := h.promoted
  emptied := by
    intro id hid
    rcases List.mem_append.mp hid with hid | hid
    · exact h.emptied hid
    · exact List.mem_singleton.mp hid ▸ hemptied
  gone := by
    intro id child hid hchild
    rw [← List.append_assoc, List.mem_append]
    left
    rcases List.mem_append.mp hid with hid | hid
    · exact h.gone hid hchild
    · rw [List.mem_singleton.mp hid] at hchild
      exact hchildren child hchild
  size := by rw [size_detach ht, h.size]
  content? := by
    intro id hid
    rw [content?_detach ht, h.content? hid]
  content?_copy := by
    intro k other hk
    rw [content?_detach ht, h.content?_copy hk]
  parent? := by
    intro id hid
    rw [parent?_detach ht, h.parent? hid, ← ite_or]
    refine if_congr ?_ rfl rfl
    rw [← List.append_assoc, List.mem_append (s := done ++ pruned), List.mem_singleton, or_comm]
  parent?_copy := fun hk =>
    parent?_copy_prune h ht (hs.lt_size (hs.isAttached_iff.mp hemptied.attached)) hk
  children_home := fun hid => children_prune hs h hemptied hrule ht hid
  children_done := by
    intro id hid
    rw [children_detach ht, h.children_done hid]
    simp
  children_detached := fun hid hdetached =>
    children_detached_prune hs h hemptied hrule ht hid hdetached

end prune

end Stage

end Unnest.Flatten
