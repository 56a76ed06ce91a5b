import Unnest.Proofs.Flatten.Moves

/-!
# Removing emptied rules

A rule is `Hollow` in a stage if all its children are gone and it is still in
its place. When none is hollow but one node, `prune` climbs from this node and
leaves no hollow rule behind, since a removed rule can only make its parent
hollow.
-/

namespace Unnest.Flatten

open RunM Sheet

/-- The rule lost all its children and was not removed for it. -/
structure Hollow (s : Sheet) (done pruned : List NodeId) (id : NodeId) : Prop where
  below : s.Below rootId id
  isRule : s.isRule id = true
  not_gone : id ∉ done ++ pruned
  nonempty : s.children id ≠ []
  gone : ∀ child ∈ s.children id, child ∈ done ++ pruned

def Settled (s : Sheet) (preserveEmpty : Bool) (done pruned : List NodeId) : Prop :=
  match preserveEmpty with
  | true => pruned = []
  | false => ∀ id, ¬ Hollow s done pruned id

def removals (rules : List NodeId) : List LogEntry :=
  rules.map .removed

theorem exec_edit (change : Sheet → Except EditError Sheet) (run : Run) :
    exec (edit change) run =
      match change run.sheet with
      | .ok sheet => (.ok (), { run with sheet })
      | .error e => (.error (.ofEdit e), run) := by
  rw [edit, exec_mapError, RunM.exec_edit]
  cases change run.sheet <;> rfl

theorem exec_prune_stop {t : Sheet} {log : List LogEntry} {id : NodeId} {path : List NodeId}
    (h : ¬ (t.isRule id = true ∧ t.children id = [])) :
    exec (prune (id :: path)) ⟨t, log⟩ = (.ok 0, ⟨t, log⟩) := by
  simp only [prune, exec_bind, exec_getSheet, if_neg h, exec_pure]

theorem exec_prune_step {t t' : Sheet} {log : List LogEntry} {id : NodeId} {path : List NodeId}
    (hrule : t.isRule id = true) (hchildren : t.children id = []) (hdetach : t.detach id = .ok t') :
    exec (prune (id :: path)) ⟨t, log⟩ =
      match exec (prune path) ⟨t', log ++ [.removed id]⟩ with
      | (.ok removed, run) => (.ok (removed + 1), run)
      | (.error e, run) => (.error e, run) := by
  simp only [prune, exec_bind, exec_getSheet, if_pos (And.intro hrule hchildren), exec_edit,
    hdetach, exec_record, exec_pure]
  generalize exec (prune path) _ = outcome
  obtain ⟨result, run⟩ := outcome
  cases result <;> rfl

theorem Chain.detach {t t' : Sheet} {rule id : NodeId} {chain : List NodeId}
    (hchain : t.Chain id chain) (hrule : rule ∉ id :: chain) (hdetach : t.detach rule = .ok t') :
    t'.Chain id chain := by
  refine hchain.congr fun other hother => ?_
  rw [parent?_detach hdetach, if_neg fun heq : other = rule => hrule (heq ▸ hother)]

namespace Stage

variable {s t : Sheet} {done pruned : List NodeId}

theorem declaration_not_gone (h : Stage s done pruned t) {id : NodeId}
    (hid : s.isDeclaration id = true) : id ∉ done ++ pruned := by
  intro hgone
  rw [isDeclaration_eq_false_of_isRule (h.isRule_of_gone hgone)] at hid
  cases hid

/-- What stops the climb: a node that is no rule, or that has children left. -/
theorem hollow_iff (hs : s.Linked) (h : Stage s done pruned t) {id : NodeId}
    (hid : s.Below rootId id) (hpruned : id ∉ pruned) (hnonempty : s.children id ≠ []) :
    t.isRule (home s done id) = true ∧ t.children (home s done id) = [] ↔
      Hollow s done pruned id := by
  rw [h.children_home hid, List.append_eq_nil_iff, List.filter_eq_nil_iff]
  constructor
  · rintro ⟨hrule, hfilter, -⟩
    have hgone : ∀ child ∈ s.children id, child ∈ done ++ pruned := by
      intro child hchild
      simpa only [decide_eq_true_eq, not_not] using hfilter child hchild
    have hdone : id ∉ done := by
      intro hdone
      obtain ⟨child, hchild, hdecl⟩ := List.any_eq_true.mp (h.promoted hdone).2.2.2
      exact h.declaration_not_gone hdecl (hgone child hchild)
    rw [home_of_not_mem hdone, h.isRule_eq (hs.lt_size hid)] at hrule
    exact ⟨hid, hrule, by simp [hdone, hpruned], hnonempty, hgone⟩
  · intro hhollow
    have hdone : id ∉ done := fun hdone => hhollow.not_gone (List.mem_append_left _ hdone)
    rw [home_of_not_mem hdone, h.isRule_eq (hs.lt_size hid),
      if_neg (hs.ne_root_of_isRule hhollow.isRule)]
    refine ⟨hhollow.isRule, ?_, rfl⟩
    intro child hchild
    simpa only [decide_eq_true_eq, not_not] using hhollow.gone child hchild

theorem emptied_of_hollow (hs : s.Linked) (h : Stage s done pruned t) {id : NodeId}
    (hid : Hollow s done pruned id) : Emptied s (· ∈ done) id := by
  refine .intro (hs.isAttached_iff.mpr hid.below) hid.isRule
    (fun hdone => hid.not_gone (List.mem_append_left _ hdone)) hid.nonempty
    (fun child hchild => h.isRule_of_gone (hid.gone child hchild)) ?_
  intro child hchild hdone
  exact h.emptied ((List.mem_append.mp (hid.gone child hchild)).resolve_left hdone)

theorem hollow_of_insert (hs : s.Linked) {done' pruned' : List NodeId} {rule id : NodeId}
    (hinsert : ∀ id, id ∈ done' ++ pruned' ↔ id ∈ done ++ pruned ∨ id = rule)
    (hid : Hollow s done' pruned' id) :
    Hollow s done pruned id ∨ s.parent? rule = some id := by
  by_cases hlast : rule ∈ s.children id
  · exact .inr ((hs.agreesAt hid.below).parent?_child hlast)
  · left
    refine ⟨hid.below, hid.isRule, ?_, hid.nonempty, ?_⟩
    · intro hgone
      exact hid.not_gone ((hinsert id).mpr (.inl hgone))
    · intro child hchild
      rcases (hinsert child).mp (hid.gone child hchild) with hgone | rfl
      · exact hgone
      · exact absurd hchild hlast

/-- Once the only hollow rule is removed, none but its parent can be hollow. -/
private theorem eq_parent_of_hollow (hs : s.Linked) {id parent : NodeId}
    (hparent : s.parent? id = some parent)
    (hhollow : ∀ other, Hollow s done pruned other → other = id) {other : NodeId}
    (hother : Hollow s done (pruned ++ [id]) other) : other = parent := by
  have hinsert : ∀ other, other ∈ done ++ (pruned ++ [id]) ↔
      other ∈ done ++ pruned ∨ other = id := by
    simp [or_assoc]
  rcases hollow_of_insert hs hinsert hother with hold | hlast
  · exact absurd ((hinsert other).mpr (.inr (hhollow other hold))) hother.not_gone
  · rw [hparent] at hlast
    exact (Option.some.inj hlast).symm

/-- How the climb over `path` ends that begins with the sheet `t`: no rule is left
hollow, and those that are removed come first in `chain`. -/
structure Climbed (s : Sheet) (done pruned : List NodeId) (t : Sheet)
    (path chain removed : List NodeId) (t' : Sheet) : Prop where
  exec (log : List LogEntry) : RunM.exec (Flatten.prune path) ⟨t, log⟩ =
    (.ok removed.length, ⟨t', log ++ removals removed⟩)
  removed_prefix : removed <+: chain
  stage : Stage s done (pruned ++ removed) t'
  not_hollow (other : NodeId) : ¬ Hollow s done (pruned ++ removed) other

private theorem climbed_of_not_hollow (hs : s.Linked) (h : Stage s done pruned t) {id : NodeId}
    (path chain : List NodeId) (hid : s.Below rootId id) (hpruned : id ∉ pruned)
    (hnonempty : s.children id ≠ []) (hself : ¬ Hollow s done pruned id)
    (hhollow : ∀ other, Hollow s done pruned other → other = id) :
    Climbed s done pruned t (home s done id :: path) chain [] t where
  exec := by
    intro log
    rw [exec_prune_stop ((h.hollow_iff hs hid hpruned hnonempty).not.mpr hself)]
    simp [removals]
  removed_prefix := List.nil_prefix
  stage := by rwa [List.append_nil]
  not_hollow := by
    intro other hother
    rw [List.append_nil] at hother
    exact hself (hhollow other hother ▸ hother)

private theorem Climbed.step {t' t'' : Sheet} {id : NodeId} {path chain removed : List NodeId}
    (h : Climbed s done (pruned ++ [id]) t' path chain removed t'') (hrule : t.isRule id = true)
    (hchildren : t.children id = []) (hdetach : t.detach id = .ok t') :
    Climbed s done pruned t (id :: path) (id :: chain) (id :: removed) t'' where
  exec := by
    intro log
    rw [exec_prune_step hrule hchildren hdetach, h.exec]
    simp [removals]
  removed_prefix := List.cons_prefix_cons.mpr ⟨rfl, h.removed_prefix⟩
  stage := by simpa using h.stage
  not_hollow := by simpa using h.not_hollow

/-- Climbing from the only node that may be hollow leaves none. What is removed
is this node and those around it, as far as they are removed. -/
theorem exec_prune (hs : s.Linked) (h : Stage s done pruned t) {id : NodeId}
    {path chain : List NodeId} (hid : s.Below rootId id) (hpruned : id ∉ pruned)
    (hnonempty : s.children id ≠ []) (hpath : t.Chain (home s done id) path)
    (hchain : s.Chain id chain)
    (hhollow : ∀ other, Hollow s done pruned other → other = id) :
    ∃ removed t', Climbed s done pruned t (home s done id :: path) (id :: chain) removed t' := by
  induction path generalizing id chain pruned t with
  | nil =>
      by_cases hself : Hollow s done pruned id
      · have hdone : id ∉ done := fun hdone => hself.not_gone (List.mem_append_left _ hdone)
        obtain ⟨parent, hparent, -⟩ := hs.exists_parent? hid (hs.ne_root_of_isRule hself.isRule)
        rw [home_of_not_mem hdone] at hpath
        obtain ⟨rest, hrest, -⟩ := h.exists_chain_of_parent? hs hid hself.not_gone hparent hpath
        cases hrest
      · exact ⟨_, _, climbed_of_not_hollow hs h _ _ hid hpruned hnonempty hself hhollow⟩
  | cons next path ih =>
      by_cases hself : Hollow s done pruned id
      · obtain ⟨hrule, hchildren⟩ := (h.hollow_iff hs hid hpruned hnonempty).mpr hself
        have hdone : id ∉ done := fun hdone => hself.not_gone (List.mem_append_left _ hdone)
        have hlt := h.home_lt hs hid
        rw [home_of_not_mem hdone] at hpath hrule hchildren hlt ⊢
        have hroot := hs.ne_root_of_isRule hself.isRule
        obtain ⟨parent, hparent, hparentBelow⟩ := hs.exists_parent? hid hroot
        obtain ⟨outer, rfl, houter⟩ := hchain.exists_of_parent? hparent
        obtain ⟨t', hdetach⟩ := exists_detach hlt hroot
        have h' := h.prune hs (h.emptied_of_hollow hs hself) hpruned hdetach hself.gone
        obtain ⟨rest, heq, hrest⟩ := h.exists_chain_of_parent? hs hid hself.not_gone hparent hpath
        obtain ⟨rfl, rfl⟩ := List.cons.inj heq
        have hmem := hs.mem_children hparent
        have hne : parent ≠ id := by
          rintro rfl
          exact hs.not_mem_children_self hid hmem
        have hparentStays : parent ∉ pruned ++ [id] := by
          simp [hne, h.parent_not_pruned hs hself.not_gone hparent]
        obtain ⟨removed, t'', hclimbed⟩ := ih h' hparentBelow hparentStays
          (List.ne_nil_of_mem hmem) (Chain.detach hrest hpath.not_mem hdetach) houter
          fun other hother => eq_parent_of_hollow hs hparent hhollow hother
        exact ⟨_, _, hclimbed.step hrule hchildren hdetach⟩
      · exact ⟨_, _, climbed_of_not_hollow hs h _ _ hid hpruned hnonempty hself hhollow⟩

end Stage

end Unnest.Flatten
