import Unnest.Proofs.Flatten.Outcome

/-!
# A second pass

What a pass leaves has no rule to promote: the rules that were promoted are at
the root, and the others have kept their declarations and their place. A
second pass finds itself in the stage where it began, with nothing to move, and
a sheet in this stage is the one before.
-/

namespace Unnest.Flatten

open Sheet

namespace Stage

variable {s t : Sheet} {pruned : List NodeId}

theorem parent?_of_hasDeclarations (hs : s.Linked) (h : Stage s (promotedRules s) pruned t)
    {id : NodeId} (hid : t.Below rootId id) (hrule : t.isRule id = true)
    (hdecl : t.hasDeclarations id = true) : t.parent? id = some rootId := by
  obtain ⟨origin, horigin, rfl⟩ := h.exists_home hs hid
  by_cases hdone : origin ∈ promotedRules s
  · obtain ⟨k, hk⟩ := exists_getElem?_of_mem hdone
    rw [home_of_getElem? h.nodup hk]
    exact h.parent?_copy (List.getElem?_eq_some_iff.mp hk).1
  · rw [home_of_not_mem hdone] at hid hrule hdecl ⊢
    have hlt := hs.lt_size horigin
    rw [h.isRule_eq hlt] at hrule
    rw [h.hasDeclarations_eq hs horigin hrule hdone] at hdecl
    have hparent : s.parent? origin = some rootId := by
      by_contra hne
      exact hdone ((mem_promotedRules hs).mpr ⟨hs.isAttached_iff.mpr horigin, hrule, hne, hdecl⟩)
    -- What is attached is not gone, so it still has its parent.
    obtain ⟨parent, hparent', -⟩ :=
      (h.linked hs).exists_parent? hid (hs.ne_root_of_isRule hrule)
    rw [h.parent? hlt] at hparent' ⊢
    split at hparent'
    · cases hparent'
    · next hgone => rw [if_neg hgone, hparent, Option.map_some, h.home_root hs]

theorem promotedRules_eq_nil (hs : s.Linked) (h : Stage s (promotedRules s) pruned t) :
    promotedRules t = [] := by
  rw [List.eq_nil_iff_forall_not_mem]
  intro id hid
  have hid := (mem_promotedRules (h.linked hs)).mp hid
  exact hid.2.2.1 (h.parent?_of_hasDeclarations hs (hid.below (h.linked hs)) hid.isRule hid.2.2.2)

end Stage

theorem exec_pass_of_promotedRules {s : Sheet} (hs : s.Linked) (hnone : promotedRules s = [])
    (options : Options) (log : List LogEntry) :
    RunM.exec (pass options) ⟨s, log⟩ =
      (.ok ⟨s.walkRules.length, 0, 0⟩,
        ⟨s, log ++ [.pass, .flattened ⟨s.walkRules.length, 0, 0⟩]⟩) := by
  obtain ⟨moves, t, hexec, hmoves, hstage, hend⟩ :=
    Stage.exec_pass hs hs.consistent.validate_eq_ok options log
  obtain rfl : moves = [] := by
    rw [hnone] at hmoves
    exact List.map_eq_nil_iff.mp hmoves
  have hstart : Stage s (promotedRules s) (Moves.removed []) s := hnone ▸ Stage.start s
  obtain rfl : t = s := (hstage.isFlattening hs hend).unique hs (hstart.isFlattening hs hend)
  simpa [Moves.promoted, Moves.removed, Moves.entries] using hexec

private theorem length_walkRules {s : Sheet} (hs : s.Linked) :
    s.walkRules.length = (s.ids.filter fun id => s.isAttached id && s.isRule id).length := by
  have hperm : s.walkRules.Perm (s.ids.filter fun id => s.isAttached id && s.isRule id) := by
    rw [List.perm_ext_iff_of_nodup s.nodup_walkRules (s.nodup_ids.filter _)]
    intro id
    rw [hs.mem_walkRules, List.mem_filter, Bool.and_eq_true, hs.isAttached_iff]
    exact ⟨fun h => ⟨mem_ids.mpr (hs.lt_size h.1), h⟩, And.right⟩
  exact hperm.length_eq

/-- A pass leaves no nested rule with declarations, and a second pass, under
any options, finds nothing to do. -/
theorem pass_settles {s : Sheet} (hvalid : s.validate = .ok ()) (hroot : s.parent? rootId = none)
    (first second : Options) (log : List LogEntry) :
    ∃ tally t log', RunM.exec (pass first) ⟨s, log⟩ = (.ok tally, ⟨t, log'⟩) ∧
      (∀ id, t.Below rootId id → t.isRule id = true → t.hasDeclarations id = true →
        t.parent? id = some rootId) ∧
      ∀ log, ∃ log', RunM.exec (pass second) ⟨t, log⟩ =
        (.ok ⟨(t.ids.filter fun id => t.isAttached id && t.isRule id).length, 0, 0⟩,
          ⟨t, log'⟩) := by
  have hs := linked_of_validate hvalid hroot
  obtain ⟨moves, t, hexec, -, hstage, -⟩ := Stage.exec_pass hs hvalid first log
  have ht := hstage.linked hs
  refine ⟨_, t, _, hexec, fun id => hstage.parent?_of_hasDeclarations hs, ?_⟩
  intro log
  have hagain := exec_pass_of_promotedRules ht (hstage.promotedRules_eq_nil hs) second log
  rw [length_walkRules ht] at hagain
  exact ⟨_, hagain⟩

theorem pass_settles_nestedSheet :
    nestedSheet.validate = .ok () ∧ nestedSheet.parent? rootId = none ∧
      ∃ tally t log', RunM.exec (pass {}) ⟨nestedSheet, []⟩ = (.ok tally, ⟨t, log'⟩) ∧
        (∀ id, t.Below rootId id → t.isRule id = true → t.hasDeclarations id = true →
          t.parent? id = some rootId) ∧
        ∀ log, ∃ log', RunM.exec (pass ⟨true⟩) ⟨t, log⟩ =
          (.ok ⟨(t.ids.filter fun id => t.isAttached id && t.isRule id).length, 0, 0⟩,
            ⟨t, log'⟩) := by
  have hvalid : nestedSheet.validate = .ok () := by decide +kernel
  have hroot : nestedSheet.parent? rootId = none := by decide
  exact ⟨hvalid, hroot, pass_settles hvalid hroot {} ⟨true⟩ []⟩

end Unnest.Flatten
