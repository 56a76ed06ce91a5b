import Unnest.Proofs.Flatten.Turn
import Unnest.Proofs.Sheet.Order

/-!
# The run of a pass

The rules take their turns in document order, so that of the promoted rules
exactly those before a rule are done when its turn comes. All around it are
among them, and none below it: it is still attached. By induction over the
turns the run ends in the stage of all promoted rules.
-/

namespace Unnest.Flatten

open Sheet

/-- A row of promoted rules, each with the rules that were removed for it. -/
abbrev Moves := List (NodeId × List NodeId)

namespace Moves

def promoted (moves : Moves) : List NodeId :=
  moves.map Prod.fst

def removed (moves : Moves) : List NodeId :=
  moves.flatMap Prod.snd

def entries (s : Sheet) (moves : Moves) : List LogEntry :=
  moves.flatMap fun move => turnEntries s move.1 move.2

end Moves

/-- The turns of `rules`, which lead from the sheet `t` to `t'` by way of `moves`.
Each rule is still attached when its turn comes. One that is not promoted
changes nothing. -/
inductive Turns (s : Sheet) (options : Options) : Sheet → List NodeId → Moves → Sheet → Prop
  | nil {t : Sheet} : Turns s options t [] [] t
  | stays {t t' : Sheet} {rule : NodeId} {rules : List NodeId} {moves : Moves} :
      t.isAttached rule = true → outerParent? t rule = none →
      Turns s options t rules moves t' → Turns s options t (rule :: rules) moves t'
  | moves {t mid t' : Sheet} {rule : NodeId} {rules removed : List NodeId} {moves : Moves} :
      Turn s options t rule removed mid →
      Turns s options mid rules moves t' →
      Turns s options t (rule :: rules) ((rule, removed) :: moves) t'

namespace Turns

variable {s t t' : Sheet} {options : Options} {rules : List NodeId} {moves : Moves}

/-- A row of turns is what the pass does to its rules. -/
theorem exec_visits (h : Turns s options t rules moves t') (tally : Tally)
    (log : List LogEntry) :
    RunM.exec (rules.foldlM (visit options) tally) ⟨t, log⟩ =
      (.ok ⟨tally.visited + rules.length, tally.promoted + moves.promoted.length,
        tally.pruned + moves.removed.length⟩, ⟨t', log ++ moves.entries s⟩) := by
  induction h generalizing tally log with
  | nil => simp [Moves.promoted, Moves.removed, Moves.entries]
  | stays hattached houter _ ih =>
      rw [List.foldlM_cons, RunM.exec_bind, exec_visit_stays hattached houter]
      simp only [ih, List.length_cons]
      congr 3
      omega
  | moves hturn _ ih =>
      rw [List.foldlM_cons, RunM.exec_bind, hturn.exec_visit]
      simp only [ih, Moves.promoted, Moves.removed, Moves.entries, List.map_cons,
        List.flatMap_cons, List.length_cons, List.length_append, List.append_assoc]
      congr 3
      all_goals omega

theorem exec_pass (h : Turns s options s s.walkRules moves t) (hvalid : s.validate = .ok ())
    (log : List LogEntry) :
    RunM.exec (pass options) ⟨s, log⟩ =
      (.ok ⟨s.walkRules.length, moves.promoted.length, moves.removed.length⟩,
        ⟨t, log ++ .pass :: moves.entries s ++
          [.flattened ⟨s.walkRules.length, moves.promoted.length, moves.removed.length⟩]⟩) := by
  simp only [pass, RunM.exec_bind, RunM.exec_record, RunM.exec_getSheet, hvalid,
    Except.mapError, RunM.exec_settle, h.exec_visits, RunM.exec_pure, Nat.zero_add,
    List.append_assoc, List.singleton_append]

end Turns

private theorem Emptied.exists_moved {s : Sheet} {Moved : NodeId → Prop} {id : NodeId}
    (h : Emptied s Moved id) : ∃ moved, Moved moved ∧ s.Below id moved ∧ moved ≠ id := by
  induction h with
  | intro attached isRule stays nonempty rules gone ih =>
      obtain ⟨child, hchild⟩ := List.exists_mem_of_ne_nil _ nonempty
      by_cases hmoved : Moved child
      · exact ⟨child, hmoved, .child .refl hchild, fun heq => stays (heq ▸ hmoved)⟩
      · obtain ⟨moved, hmoved, hbelow, -⟩ := ih child hchild hmoved
        exact ⟨moved, hmoved, Below.of_child hchild hbelow, fun heq => stays (heq ▸ hmoved)⟩

namespace Stage

variable {s t : Sheet} {pruned before rules : List NodeId} {rule : NodeId}

theorem not_pruned_at_turn (hs : s.Linked)
    (h : Stage s (before.filter (Promoted s ·)) pruned t)
    (hwalk : s.walkRules = before ++ rule :: rules) : rule ∉ pruned := by
  intro hmem
  have hemptied := h.emptied hmem
  obtain ⟨moved, hmoved, hbelow, hne⟩ := hemptied.exists_moved
  have hmoved := (List.mem_filter.mp hmoved).1
  obtain ⟨first, between, rfl⟩ := List.append_of_mem hmoved
  have hwalk' : s.walkRules = first ++ moved :: (between ++ rule :: rules) := by
    rw [hwalk, List.append_assoc]
    rfl
  have hrule := hs.below_precedes_rule hwalk' (hs.isAttached_iff.mp hemptied.attached) hbelow hne
    hemptied.isRule
  have hnodup := s.nodup_walkRules
  rw [hwalk, List.append_assoc] at hnodup
  exact (List.nodup_append.mp hnodup).2.2 rule hrule rule (by simp) rfl

private theorem ancestors_done (hs : s.Linked) (hrule : Promoted s rule)
    (hwalk : s.walkRules = before ++ rule :: rules) :
    ∀ ancestor ∈ s.ancestors rule, Promoted s ancestor →
      ancestor ∈ before.filter (Promoted s ·) := by
  intro ancestor hmem hpromoted
  have hbelow := hrule.below hs
  have hchain := (hs.chain_ancestors hbelow).1
  obtain ⟨hroot, hid⟩ := hs.below_of_mem_chain hbelow hchain hmem
  have hne : rule ≠ ancestor := fun heq => hchain.not_mem (heq ▸ hmem)
  exact List.mem_filter.mpr
    ⟨hs.below_precedes_rule hwalk hroot hid hne hpromoted.isRule, by simpa using hpromoted⟩

theorem exists_turns (hs : s.Linked) (options : Options)
    (h : Stage s (before.filter (Promoted s ·)) pruned t)
    (hsettled : Settled s options.preserveEmpty (before.filter (Promoted s ·)) pruned)
    (hwalk : s.walkRules = before ++ rules) :
    ∃ (moves : Moves) (t' : Sheet), Turns s options t rules moves t' ∧
      moves.promoted = rules.filter (Promoted s ·) ∧
      Stage s (s.walkRules.filter (Promoted s ·)) (pruned ++ moves.removed) t' ∧
      Settled s options.preserveEmpty (s.walkRules.filter (Promoted s ·))
        (pruned ++ moves.removed) := by
  induction rules generalizing before pruned t with
  | nil =>
      rw [List.append_nil] at hwalk
      subst hwalk
      exact ⟨[], t, .nil, rfl, by simpa [Moves.removed] using h,
        by simpa [Moves.removed] using hsettled⟩
  | cons rule rules ih =>
      have hwalk' : s.walkRules = (before ++ [rule]) ++ rules := by simp [hwalk]
      obtain ⟨hbelow, hisRule⟩ := hs.mem_walkRules.mp (by rw [hwalk]; simp : rule ∈ s.walkRules)
      by_cases hrule : Promoted s rule
      · have hdone : rule ∉ before.filter (Promoted s ·) := by
          have hnodup := s.nodup_walkRules
          rw [hwalk] at hnodup
          exact fun hmem => (List.nodup_append.mp hnodup).2.2 rule (List.mem_filter.mp hmem).1
            rule (by simp) rfl
        obtain ⟨removed, mid, hturn, h₁, hsettled₁⟩ := h.exists_turn hs hrule hdone
          (ancestors_done hs hrule hwalk) options hsettled
        have hfilter : before.filter (Promoted s ·) ++ [rule] =
            (before ++ [rule]).filter (Promoted s ·) := by simp [hrule]
        rw [hfilter] at h₁ hsettled₁
        obtain ⟨moves, t', hturns, hmoves, hstage, hend⟩ := ih h₁ hsettled₁ hwalk'
        refine ⟨(rule, removed) :: moves, t', .moves hturn hturns, ?_, ?_, ?_⟩
        · simpa [Moves.promoted, hrule] using hmoves
        · simpa [Moves.removed] using hstage
        · simpa [Moves.removed] using hend
      · have hpruned := h.not_pruned_at_turn hs hwalk
        have hdone : rule ∉ before.filter (Promoted s ·) := by simp [hrule]
        have hattached := (h.isAttached_iff hs (hs.lt_size hbelow)).mpr
          ⟨hs.isAttached_iff.mpr hbelow, by simp [hdone, hpruned]⟩
        have houter := h.outerParent?_not_promoted hs hbelow hisRule hrule
        have hfilter : before.filter (Promoted s ·) =
            (before ++ [rule]).filter (Promoted s ·) := by simp [hrule]
        rw [hfilter] at h hsettled
        obtain ⟨moves, t', hturns, hmoves, hstage, hend⟩ := ih h hsettled hwalk'
        exact ⟨moves, t', .stays hattached houter hturns, by simpa [hrule] using hmoves,
          hstage, hend⟩

theorem exists_turns_walkRules (hs : s.Linked) (options : Options) :
    ∃ (moves : Moves) (t' : Sheet), Turns s options s s.walkRules moves t' ∧
      moves.promoted = promotedRules s ∧
      Stage s (promotedRules s) moves.removed t' ∧
      Settled s options.preserveEmpty (promotedRules s) moves.removed := by
  have hsettled : Settled s options.preserveEmpty [] [] := by
    cases options.preserveEmpty with
    | true => rfl
    | false =>
        intro id hid
        obtain ⟨child, hchild⟩ := List.exists_mem_of_ne_nil _ hid.nonempty
        simpa using hid.gone child hchild
  have hstart : Stage s (([] : List NodeId).filter (Promoted s ·)) [] s := Stage.start s
  have hwalk : s.walkRules = [] ++ s.walkRules := rfl
  exact exists_turns hs options hstart hsettled hwalk

/-- The whole pass, with its tally and its log. -/
theorem exec_pass (hs : s.Linked) (hvalid : s.validate = .ok ()) (options : Options)
    (log : List LogEntry) :
    ∃ (moves : Moves) (t' : Sheet), RunM.exec (pass options) ⟨s, log⟩ =
        (.ok ⟨s.walkRules.length, moves.promoted.length, moves.removed.length⟩,
          ⟨t', log ++ .pass :: moves.entries s ++
            [.flattened ⟨s.walkRules.length, moves.promoted.length, moves.removed.length⟩]⟩) ∧
      moves.promoted = promotedRules s ∧
      Stage s (promotedRules s) moves.removed t' ∧
      Settled s options.preserveEmpty (promotedRules s) moves.removed := by
  obtain ⟨moves, t', hturns, hmoves, hstage, hend⟩ := exists_turns_walkRules hs options
  exact ⟨moves, t', hturns.exec_pass hvalid log, hmoves, hstage, hend⟩

end Stage

end Unnest.Flatten
