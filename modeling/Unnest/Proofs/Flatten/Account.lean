import Unnest.Proofs.Flatten.Outcome

/-!
# The account of a pass

A pass counts what it does and logs it. Its log names, turn by turn, each rule
that goes to the root and right behind it the rules that are removed for it.
The three ways to tell what went agree: the counts, the log, and the sheet
before against the sheet behind the pass.
-/

namespace Unnest

namespace LogEntry

def isPromoting : LogEntry → Bool
  | promoting .. => true
  | _ => false

def isRemoved : LogEntry → Bool
  | removed _ => true
  | _ => false

end LogEntry

namespace Flatten

open Sheet

namespace Moves

theorem countP_isPromoting_entries (s : Sheet) (moves : Moves) :
    (moves.entries s).countP LogEntry.isPromoting = moves.promoted.length := by
  induction moves with
  | nil => rfl
  | cons move moves ih =>
      have hremovals : (removals move.2).countP LogEntry.isPromoting = 0 := by
        simp [removals, LogEntry.isPromoting]
      rw [entries] at ih ⊢
      rw [List.flatMap_cons, List.countP_append, ih, turnEntries, List.countP_cons, hremovals]
      simp [promoted, LogEntry.isPromoting, Nat.add_comm]

theorem countP_isRemoved_entries (s : Sheet) (moves : Moves) :
    (moves.entries s).countP LogEntry.isRemoved = moves.removed.length := by
  induction moves with
  | nil => rfl
  | cons move moves ih =>
      have hremovals : (removals move.2).countP LogEntry.isRemoved = move.2.length := by
        rw [List.countP_eq_length.mpr (by simp [removals, LogEntry.isRemoved]), removals,
          List.length_map]
      rw [entries] at ih ⊢
      rw [List.flatMap_cons, List.countP_append, ih, turnEntries, List.countP_cons, hremovals]
      simp [removed, LogEntry.isRemoved]

end Moves

/-- What `moves` say of a pass from `s` to `t` and its tally. -/
structure Account (s : Sheet) (options : Options) (moves : Moves) (tally : Tally)
    (t : Sheet) : Prop where
  /-- They are what the rules did at their turns, all of them still attached. -/
  turns : Turns s options s s.walkRules moves t
  /-- The nested rules with declarations were promoted, in document order. -/
  promoted : moves.promoted = s.walkRules.filter fun rule =>
    s.hasDeclarations rule && (s.parent? rule).any (· != rootId)
  /-- The selector that the log shows for a rule is the one that its copy carries. -/
  selector?_copy {k : Nat} {rule : NodeId} : moves.promoted[k]? = some rule →
    t.selector? (s.size + k) = some (copySelector s rule)
  visited : tally.visited = s.walkRules.length
  tally_promoted : tally.promoted = (moves.entries s).countP LogEntry.isPromoting
  tally_pruned : tally.pruned = (moves.entries s).countP LogEntry.isRemoved
  /-- No rule goes twice. -/
  nodup_promoted : moves.promoted.Nodup
  nodup_removed : moves.removed.Nodup
  /-- The rules that went are those that the pass detached. -/
  mem_iff {rule : NodeId} : rule ∈ moves.promoted ++ moves.removed ↔
    s.isRule rule = true ∧ s.isAttached rule = true ∧ t.isAttached rule = false
  removed_eq_nil : options.preserveEmpty = true → moves.removed = []

private theorem promotedRules_eq {s : Sheet} (hs : s.Linked) :
    promotedRules s = s.walkRules.filter fun rule =>
      s.hasDeclarations rule && (s.parent? rule).any (· != rootId) := by
  apply List.filter_congr
  intro rule hrule
  obtain ⟨hbelow, hisRule⟩ := hs.mem_walkRules.mp hrule
  obtain ⟨parent, hparent, -⟩ := hs.exists_parent? hbelow (hs.ne_root_of_isRule hisRule)
  rw [Bool.eq_iff_iff, decide_eq_true_iff]
  simp [Promoted, hs.isAttached_iff.mpr hbelow, hisRule, hparent, and_comm]

private theorem Stage.account {s t : Sheet} (hs : s.Linked) {options : Options} {moves : Moves}
    (hturns : Turns s options s s.walkRules moves t) (hmoves : moves.promoted = promotedRules s)
    (h : Stage s (promotedRules s) moves.removed t)
    (hend : Settled s options.preserveEmpty (promotedRules s) moves.removed) :
    Account s options moves
      ⟨s.walkRules.length, moves.promoted.length, moves.removed.length⟩ t where
  turns := hturns
  promoted := hmoves.trans (promotedRules_eq hs)
  selector?_copy := by
    intro k rule hk
    exact h.selector?_copy (hmoves ▸ hk)
  visited := rfl
  tally_promoted := (moves.countP_isPromoting_entries s).symm
  tally_pruned := (moves.countP_isRemoved_entries s).symm
  nodup_promoted := hmoves ▸ h.nodup
  nodup_removed := h.nodup_pruned
  mem_iff := by
    intro rule
    rw [hmoves]
    constructor
    · intro hgone
      have hslot := hs.lt_size (h.below_of_gone hs hgone)
      refine ⟨h.isRule_of_gone hgone, hs.isAttached_iff.mpr (h.below_of_gone hs hgone), ?_⟩
      rw [← Bool.not_eq_true, h.isAttached_iff hs hslot]
      exact fun hstays => hstays.2 hgone
    · rintro ⟨-, hattached, hdetached⟩
      have hslot := hs.lt_size (hs.isAttached_iff.mp hattached)
      rw [← Bool.not_eq_true, h.isAttached_iff hs hslot] at hdetached
      by_contra hstays
      exact hdetached ⟨hattached, hstays⟩
  removed_eq_nil := by
    intro hpreserve
    rw [hpreserve] at hend
    exact hend

/-- The log of a pass is its span, its moves one after the other, and its tally,
and all of it is accounted for. -/
theorem pass_accounts {s : Sheet} (hvalid : s.validate = .ok ())
    (hroot : s.parent? rootId = none) (options : Options) (log : List LogEntry) :
    ∃ (moves : Moves) (tally : Tally) (t : Sheet),
      RunM.exec (pass options) ⟨s, log⟩ =
        (.ok tally, ⟨t, log ++ .pass :: moves.entries s ++ [.flattened tally]⟩) ∧
      Account s options moves tally t := by
  have hs := linked_of_validate hvalid hroot
  obtain ⟨moves, t, hturns, hmoves, hstage, hend⟩ := Stage.exists_turns_walkRules hs options
  exact ⟨moves, _, t, hturns.exec_pass hvalid log, hstage.account hs hturns hmoves hend⟩

theorem pass_accounts_nestedSheet :
    nestedSheet.validate = .ok () ∧ nestedSheet.parent? rootId = none ∧
      ∃ (moves : Moves) (tally : Tally) (t : Sheet),
        RunM.exec (pass {}) ⟨nestedSheet, []⟩ =
          (.ok tally, ⟨t, [] ++ .pass :: moves.entries nestedSheet ++ [.flattened tally]⟩) ∧
        Account nestedSheet {} moves tally t := by
  have hvalid : nestedSheet.validate = .ok () := by decide +kernel
  have hroot : nestedSheet.parent? rootId = none := by decide
  exact ⟨hvalid, hroot, pass_accounts hvalid hroot {} []⟩

end Flatten

end Unnest
