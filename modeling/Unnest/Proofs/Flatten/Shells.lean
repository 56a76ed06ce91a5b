import Unnest.Proofs.Flatten.Account
import Unnest.Proofs.Sheet.DetachAll

/-!
# Emptied rules that are preserved

A pass that preserves emptied rules and one that removes them promote the same
rules to the same slots under the same selectors. What the second one removes
between its promotions may as well be removed behind the first: all that the
stages of the two runs differ in is whether these rules are detached.
-/

namespace Unnest

namespace LogEntry

def promotion? : LogEntry → Option (NodeId × String)
  | promoting rule selector => some (rule, selector)
  | _ => none

def removal? : LogEntry → Option NodeId
  | removed rule => some rule
  | _ => none

end LogEntry

namespace Flatten

open Sheet

namespace Moves

theorem filterMap_promotion?_entries (s : Sheet) (moves : Moves) :
    (moves.entries s).filterMap LogEntry.promotion? =
      moves.promoted.map fun rule => (rule, copySelector s rule) := by
  induction moves with
  | nil => rfl
  | cons move moves ih =>
      have hremovals : (removals move.2).filterMap LogEntry.promotion? = [] := by
        simp [removals, LogEntry.promotion?]
      rw [entries] at ih ⊢
      rw [List.flatMap_cons, List.filterMap_append, ih, turnEntries, List.filterMap_cons,
        hremovals]
      rfl

theorem filterMap_removal?_entries (s : Sheet) (moves : Moves) :
    (moves.entries s).filterMap LogEntry.removal? = moves.removed := by
  induction moves with
  | nil => rfl
  | cons move moves ih =>
      have hremovals : (removals move.2).filterMap LogEntry.removal? = move.2 := by
        simp [removals, LogEntry.removal?, Function.comp_def]
      rw [entries] at ih ⊢
      rw [List.flatMap_cons, List.filterMap_append, ih, turnEntries, List.filterMap_cons,
        hremovals]
      rfl

end Moves

namespace Stage

variable {s t u : Sheet} {done pruned : List NodeId}

/-- A slot of a stage is a home, or that of a promoted rule, or was detached
before the pass, or is not there. -/
theorem cases_slot (hs : s.Linked) (h : Stage s done pruned t) (id : NodeId) :
    (∃ origin, s.Below rootId origin ∧ home s done origin = id) ∨ id ∈ done ∨
      (id < s.size ∧ ¬ s.Below rootId id) ∨ t.size ≤ id := by
  by_cases hold : id < s.size
  · by_cases hbelow : s.Below rootId id
    · by_cases hdone : id ∈ done
      · exact .inr (.inl hdone)
      · exact .inl ⟨id, hbelow, home_of_not_mem hdone⟩
    · exact .inr (.inr (.inl ⟨hold, hbelow⟩))
  · have hge : s.size ≤ id := Nat.le_of_not_lt hold
    by_cases hnew : id < t.size
    · rw [h.size] at hnew
      have hk : id - s.size < done.length := Nat.sub_lt_left_of_lt_add hge hnew
      have hrule : done[id - s.size]? = some done[id - s.size] := List.getElem?_eq_getElem hk
      have hhome : home s done done[id - s.size] = id := by
        rw [home_of_getElem? h.nodup hrule, Nat.add_sub_cancel' hge]
      exact .inl ⟨_, (h.promoted (List.getElem_mem hk)).below hs, hhome⟩
    · exact .inr (.inr (.inr (Nat.le_of_not_lt hnew)))

theorem lt_size_of_pruned (hs : s.Linked) (h : Stage s done pruned t) {id : NodeId}
    (hid : id ∈ pruned) : id < s.size :=
  hs.lt_size (h.below_of_gone hs (List.mem_append_right _ hid))

section detachAll

variable (hs : s.Linked) (h : Stage s done [] t) (h' : Stage s done pruned u)
include hs h h'

private theorem filter_children_home {origin : NodeId} (horigin : s.Below rootId origin) :
    (t.children (home s done origin)).filter
        (fun child => ¬ (child ∈ pruned ∧ t.parent? child = some (home s done origin))) =
      u.children (home s done origin) := by
  rw [h.children_home horigin, h'.children_home horigin, List.filter_append,
    List.filter_filter]
  congr 1
  · apply List.filter_congr
    intro child hchild
    have hslot := hs.lt_size (horigin.child hchild)
    have hparent := (hs.agreesAt horigin).parent?_child hchild
    by_cases hdone : child ∈ done
    · simp [hdone]
    · have hhome : t.parent? child = some (home s done origin) :=
        (h.parent?_eq_home_iff hs hslot (by simpa using hdone) horigin).mpr hparent
      simp [hdone, hhome]
  · -- The copies at the end of the root are not among what was removed.
    apply List.filter_eq_self.mpr
    intro child hchild
    have hnew : child ∉ pruned := by
      intro hpruned
      split at hchild
      · exact not_mem_newSlots (h'.lt_size_of_pruned hs hpruned) hchild
      · cases hchild
    simp [hnew]

private theorem filter_children_detached {id : NodeId} (hid : id < s.size)
    (hdetached : ¬ s.Below rootId id) :
    (t.children id).filter (fun child => ¬ (child ∈ pruned ∧ t.parent? child = some id)) =
      u.children id := by
  rw [h.children_detached hid hdetached, h'.children_detached hid hdetached]
  apply List.filter_eq_self.mpr
  intro child _
  rw [decide_eq_true_eq]
  rintro ⟨hpruned, hparent⟩
  have hgone : child ∈ done ++ pruned := List.mem_append_right _ hpruned
  have hbelow := h'.below_of_gone hs hgone
  -- An attached rule has an attached parent, and this is not at home in `id`.
  rw [h.parent? (hs.lt_size hbelow)] at hparent
  split at hparent
  · cases hparent
  · obtain ⟨parent, hup, hhome⟩ := Option.map_eq_some_iff.mp hparent
    have hself : id = parent := by
      rw [← hhome]
      exact eq_of_home_lt (hhome ▸ hid)
    exact hdetached (hself ▸ hs.below_parent hbelow hup)

theorem children_detachAll_pruned {v : Sheet} (hv : t.detachAll pruned = .ok v) (id : NodeId) :
    v.children id = u.children id := by
  rw [children_detachAll hv]
  rcases h.cases_slot hs id with ⟨origin, horigin, rfl⟩ | hdone | ⟨hid, hdetached⟩ | hid
  · exact filter_children_home hs h h' horigin
  · rw [h.children_done hdone, h'.children_done hdone, List.filter_nil]
  · exact filter_children_detached hs h h' hid hdetached
  · have hsize : u.size = t.size := by rw [h.size, h'.size]
    rw [children_eq_nil_of_size_le hid, children_eq_nil_of_size_le (hsize ▸ hid),
      List.filter_nil]

theorem parent?_detachAll_pruned {v : Sheet} (hv : t.detachAll pruned = .ok v) (id : NodeId) :
    v.parent? id = u.parent? id := by
  rw [parent?_detachAll hv]
  by_cases hold : id < s.size
  · rw [h.parent? hold, h'.parent? hold, List.append_nil]
    by_cases hpruned : id ∈ pruned
    · simp [hpruned]
    · simp [hpruned]
  · have hpruned : id ∉ pruned := fun hpruned => hold (h'.lt_size_of_pruned hs hpruned)
    rw [if_neg hpruned]
    obtain ⟨k, rfl⟩ := Nat.exists_eq_add_of_le (Nat.le_of_not_lt hold)
    by_cases hk : k < done.length
    · rw [h.parent?_copy hk, h'.parent?_copy hk]
    · have hbehind : s.size + done.length ≤ s.size + k :=
        Nat.add_le_add_left (Nat.le_of_not_lt hk) _
      rw [parent?_eq_none_of_size_le (h.size ▸ hbehind),
        parent?_eq_none_of_size_le (h'.size ▸ hbehind)]

omit hs in
private theorem content?_eq_of_stages (id : NodeId) : t.content? id = u.content? id := by
  by_cases hold : id < s.size
  · rw [h.content? hold, h'.content? hold]
  · obtain ⟨k, rfl⟩ := Nat.exists_eq_add_of_le (Nat.le_of_not_lt hold)
    by_cases hk : k < done.length
    · have hrule := List.getElem?_eq_getElem hk
      rw [h.content?_copy hrule, h'.content?_copy hrule]
    · have hbehind : s.size + done.length ≤ s.size + k :=
        Nat.add_le_add_left (Nat.le_of_not_lt hk) _
      rw [content?_eq_none_iff.mpr (h.size ▸ hbehind), content?_eq_none_iff.mpr (h'.size ▸ hbehind)]

/-- Two stages with the same promoted rules differ only in what is detached. -/
theorem detachAll_pruned : t.detachAll pruned = .ok u := by
  have hslots : ∀ id ∈ pruned, id < t.size := by
    intro id hid
    have hold := h'.lt_size_of_pruned hs hid
    rw [h.size]
    exact Nat.lt_of_lt_of_le hold (Nat.le_add_right _ _)
  have hroot : rootId ∉ pruned := fun hroot =>
    h'.root_not_gone hs (List.mem_append_right _ hroot)
  obtain ⟨v, hv⟩ := exists_detachAll hslots hroot
  have heq : v = u := by
    apply ext_get?
    intro id
    apply get?_eq_of_views
    · rw [content?_detachAll hv, content?_eq_of_stages h h']
    · exact parent?_detachAll_pruned hs h h' hv id
    · exact children_detachAll_pruned hs h h' hv id
  rw [hv, heq]

end detachAll

end Stage

def promotions (log : List LogEntry) : List (NodeId × String) :=
  log.filterMap LogEntry.promotion?

def removedRules (log : List LogEntry) : List NodeId :=
  log.filterMap LogEntry.removal?

/-- Behind the slots of `s` there is one copy for each promotion, and no more. -/
structure HasCopies (s : Sheet) (promoted : List (NodeId × String)) (t : Sheet) : Prop where
  size : t.size = s.size + promoted.length
  content? {k : Nat} {rule : NodeId} {selector : String} :
    promoted[k]? = some (rule, selector) → t.content? (s.size + k) = some (.rule selector)

theorem Stage.hasCopies {s t : Sheet} {done pruned : List NodeId} (h : Stage s done pruned t) :
    HasCopies s (done.map fun rule => (rule, copySelector s rule)) t where
  size := by rw [h.size, List.length_map]
  content? := by
    intro k rule selector hk
    rw [List.getElem?_map, Option.map_eq_some_iff] at hk
    obtain ⟨_, hrule, heq⟩ := hk
    cases heq
    exact h.content?_copy hrule

def passEntries (s : Sheet) (moves : Moves) (tally : Tally) : List LogEntry :=
  .pass :: moves.entries s ++ [.flattened tally]

theorem promotions_passEntries (s : Sheet) (moves : Moves) (tally : Tally) :
    promotions (passEntries s moves tally) =
      moves.promoted.map fun rule => (rule, copySelector s rule) := by
  rw [promotions, passEntries, List.cons_append, List.filterMap_cons, List.filterMap_append,
    moves.filterMap_promotion?_entries]
  exact List.append_nil _

private theorem removedRules_passEntries (s : Sheet) (moves : Moves) (tally : Tally) :
    removedRules (passEntries s moves tally) = moves.removed := by
  rw [removedRules, passEntries, List.cons_append, List.filterMap_cons, List.filterMap_append,
    moves.filterMap_removal?_entries]
  exact List.append_nil _

/-- A pass that preserves emptied rules makes the same copies as one that does
not, and detaching behind it what the other one removed, in the order of its
log, gives the very sheet of the other one. -/
theorem pass_preserving_detachAll {s : Sheet} (hvalid : s.validate = .ok ())
    (hroot : s.parent? rootId = none) (log : List LogEntry) :
    ∃ (tally tally' : Tally) (t t' : Sheet) (entries entries' : List LogEntry),
      RunM.exec (pass ⟨true⟩) ⟨s, log⟩ = (.ok tally, ⟨t, log ++ entries⟩) ∧
      RunM.exec (pass ⟨false⟩) ⟨s, log⟩ = (.ok tally', ⟨t', log ++ entries'⟩) ∧
      tally.visited = tally'.visited ∧ tally.promoted = tally'.promoted ∧
      tally'.pruned = (removedRules entries').length ∧
      promotions entries = promotions entries' ∧
      HasCopies s (promotions entries) t ∧ HasCopies s (promotions entries') t' ∧
      t.detachAll (removedRules entries') = .ok t' := by
  have hs := linked_of_validate hvalid hroot
  obtain ⟨moves, t, hturns, hmoves, hstage, hnone⟩ := Stage.exists_turns_walkRules hs ⟨true⟩
  obtain ⟨moves', t', hturns', hmoves', hstage', -⟩ := Stage.exists_turns_walkRules hs ⟨false⟩
  have hexec := hturns.exec_pass hvalid log
  have hexec' := hturns'.exec_pass hvalid log
  rw [List.append_assoc] at hexec hexec'
  have hnone : moves.removed = [] := hnone
  rw [hnone] at hstage
  refine ⟨_, _, t, t', passEntries s moves _, passEntries s moves' _, hexec, hexec', rfl, ?_⟩
  rw [promotions_passEntries, promotions_passEntries, removedRules_passEntries, hmoves, hmoves']
  exact ⟨rfl, rfl, rfl, hstage.hasCopies, hstage'.hasCopies,
    hstage.detachAll_pruned hs hstage'⟩

/-- `a { b { c { x: y } } d { z: w } }`: the shell of `b` goes with `c`, that of
`a` with `d`. -/
def twigSheet : Sheet where
  nodes := #[⟨.root, none, [1]⟩, ⟨.rule "a", some 0, [2, 5]⟩, ⟨.rule "b", some 1, [3]⟩,
    ⟨.rule "c", some 2, [4]⟩, ⟨.declaration "x" "y" false, some 3, []⟩,
    ⟨.rule "d", some 1, [6]⟩, ⟨.declaration "z" "w" false, some 5, []⟩]
  nonempty := by decide

theorem pass_preserving_detachAll_twigSheet :
    twigSheet.validate = .ok () ∧ twigSheet.parent? rootId = none ∧
      ∃ (tally tally' : Tally) (t t' : Sheet) (entries entries' : List LogEntry),
        RunM.exec (pass ⟨true⟩) ⟨twigSheet, []⟩ = (.ok tally, ⟨t, [] ++ entries⟩) ∧
        RunM.exec (pass ⟨false⟩) ⟨twigSheet, []⟩ = (.ok tally', ⟨t', [] ++ entries'⟩) ∧
        tally.visited = tally'.visited ∧ tally.promoted = tally'.promoted ∧
        tally'.pruned = (removedRules entries').length ∧
        promotions entries = promotions entries' ∧
        HasCopies twigSheet (promotions entries) t ∧
        HasCopies twigSheet (promotions entries') t' ∧
        t.detachAll (removedRules entries') = .ok t' := by
  have hvalid : twigSheet.validate = .ok () := by decide +kernel
  have hroot : twigSheet.parent? rootId = none := by decide
  exact ⟨hvalid, hroot, pass_preserving_detachAll hvalid hroot []⟩

end Flatten

end Unnest
