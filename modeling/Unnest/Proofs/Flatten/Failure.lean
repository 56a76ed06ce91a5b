import Unnest.Proofs.Flatten.Outcome
import Unnest.Proofs.Pipeline.Stop

/-!
# Failures of the pass

The pass refuses a malformed sheet as it is. Once it has begun it does not fail,
and the check accepts what it leaves: from a linked sheet it goes through
stages, which are linked too. What else the check accepts is a sheet whose root
names a parent. All its rules count as detached then, so that nothing is done.
-/

namespace Unnest.Flatten

open Sheet

/-! ## Rules that count as detached -/

private theorem exec_visit_detached {s : Sheet} {rule : NodeId} (hrule : s.isAttached rule = false)
    (options : Options) (tally : Tally) (log : List LogEntry) :
    RunM.exec (visit options tally rule) ⟨s, log⟩ = (.ok tally, ⟨s, log⟩) := by
  simp [visit, RunM.exec_bind, hrule]

private theorem exec_visits_detached {s : Sheet} {rules : List NodeId}
    (hrules : ∀ rule ∈ rules, s.isAttached rule = false) (options : Options) (tally : Tally)
    (log : List LogEntry) :
    RunM.exec (rules.foldlM (visit options) tally) ⟨s, log⟩ = (.ok tally, ⟨s, log⟩) := by
  induction rules with
  | nil => rfl
  | cons rule rules ih =>
      obtain ⟨hrule, hrules⟩ := List.forall_mem_cons.mp hrules
      rw [List.foldlM_cons, RunM.exec_bind, exec_visit_detached hrule]
      exact ih hrules

theorem exec_pass_of_parent {s : Sheet} (hs : s.Consistent) {outer : NodeId}
    (hroot : s.parent? rootId = some outer) (options : Options) (log : List LogEntry) :
    RunM.exec (pass options) ⟨s, log⟩ = (.ok {}, ⟨s, log ++ [.pass] ++ [.flattened {}]⟩) := by
  have hdetached : ∀ rule ∈ s.walkRules, s.isAttached rule = false := by
    intro rule hrule
    apply hs.isAttached_eq_false hroot
    rintro rfl
    have hisRule := (List.mem_filter.mp hrule).2
    simp [isRule, hs.content?_root, Content.isRule] at hisRule
  simp only [pass, RunM.exec_bind, RunM.exec_record, RunM.exec_getSheet, hs.validate_eq_ok,
    Except.mapError, RunM.exec_settle, exec_visits_detached hdetached, RunM.exec_pure]

/-! ## Outcomes -/

theorem exec_pass_malformed {s : Sheet} {malformation : Malformation}
    (h : s.validate = .error malformation) (options : Options) (log : List LogEntry) :
    RunM.exec (pass options) ⟨s, log⟩ =
      (.error (.malformed malformation), ⟨s, log ++ [.pass]⟩) := by
  simp [pass, RunM.exec_bind, h, Except.mapError]

theorem exists_exec_pass {s : Sheet} (h : s.validate = .ok ()) (options : Options)
    (log : List LogEntry) :
    ∃ tally t log', RunM.exec (pass options) ⟨s, log⟩ = (.ok tally, ⟨t, log'⟩) ∧
      t.validate = .ok () := by
  cases hroot : s.parent? rootId with
  | none =>
      have hs := linked_of_validate h hroot
      obtain ⟨moves, t, hexec, -, hstage, -⟩ := Stage.exec_pass hs h options log
      exact ⟨_, t, _, hexec, (hstage.linked hs).consistent.validate_eq_ok⟩
  | some outer =>
      exact ⟨_, s, _, exec_pass_of_parent (consistent_of_validate h) hroot options log, h⟩

/-- The pass fails only on a malformed sheet, which stays as it is. -/
theorem sheet_eq_of_pass_error {options : Options} {run stop : Run} {error : FlattenError}
    (h : RunM.exec (pass options) run = (.error error, stop)) : stop.sheet = run.sheet := by
  cases hvalid : run.sheet.validate with
  | ok _ =>
      obtain ⟨tally, t, log', hpass, -⟩ := exists_exec_pass hvalid options run.log
      rw [hpass] at h
      cases h
  | error malformation =>
      rw [exec_pass_malformed hvalid] at h
      cases h
      rfl

/-! ## Pipelines -/

theorem exec_flatten (options : Options) (run : Run) :
    RunM.exec (Plugin.flatten options).run run =
      match RunM.exec (pass options) run with
      | (.ok _, run') => (.ok (), run')
      | (.error error, run') => (.error (.flatten error), run') := by
  simp only [Plugin.flatten, RunM.exec_bind, RunM.exec_mapError]
  generalize RunM.exec (pass options) run = outcome
  obtain ⟨result, run'⟩ := outcome
  cases result <;> rfl

theorem sheet_eq_of_flatten_error {options : Options} {run stop : Run} {error : PluginError}
    (h : RunM.exec (Plugin.flatten options).run run = (.error error, stop)) :
    stop.sheet = run.sheet := by
  rw [exec_flatten] at h
  split at h
  · cases h
  · next error run' hpass =>
      obtain rfl : run' = stop := congrArg Prod.snd h
      exact sheet_eq_of_pass_error hpass

theorem exec_runPlugin_malformed {run : Run} {malformation : Malformation}
    (h : run.sheet.validate = .error malformation) (options : Options) :
    RunM.exec (Pipeline.runPlugin (.flatten options)) run =
      (.error (.plugin "flatten-nesting" (.flatten (.malformed malformation))),
        ⟨run.sheet, run.log ++ [.plugin "flatten-nesting"] ++ [.pass]⟩) := by
  simp only [Pipeline.exec_runPlugin, Pipeline.entering, exec_flatten, exec_pass_malformed h]
  rfl

private theorem sheet_eq_of_runPlugin_error {options : Options} {mid stop : Run}
    {error : PipelineError}
    (h : RunM.exec (Pipeline.runPlugin (.flatten options)) mid = (.error error, stop)) :
    stop.sheet = mid.sheet := by
  rw [Pipeline.exec_runPlugin] at h
  split at h
  · cases h
  · next hplugin =>
      cases h
      exact (sheet_eq_of_flatten_error hplugin :)

/-- The pass fails on malformed sheets alone, with their malformation and
before it changes anything. So does a pipeline at this plugin. -/
theorem pass_fails_before_editing (options : Options) :
    (∀ s log malformation, s.validate = .error malformation →
      RunM.exec (pass options) ⟨s, log⟩ =
        (.error (.malformed malformation), ⟨s, log ++ [.pass]⟩)) ∧
    (∀ s log, s.validate = .ok () →
      ∃ tally t log', RunM.exec (pass options) ⟨s, log⟩ = (.ok tally, ⟨t, log'⟩) ∧
        t.validate = .ok ()) ∧
    ∀ before after start mid error stop,
      RunM.exec (Pipeline.run before) start = (.ok (), mid) →
      RunM.exec (Pipeline.runPlugin (.flatten options)) mid = (.error error, stop) →
      stop.sheet = mid.sheet ∧
        RunM.exec (Pipeline.run (before ++ .flatten options :: after)) start =
          (.error error, stop) := by
  refine ⟨fun s log malformation h => exec_pass_malformed h options log,
    fun s log h => exists_exec_pass h options log, ?_⟩
  intro before after start mid error stop hbefore hplugin
  exact ⟨sheet_eq_of_runPlugin_error hplugin, Pipeline.exec_run_append_of_error hbefore hplugin⟩

/-- `nestedSheet` after the rule `b` has lost its parent link. -/
def tornSheet : Sheet :=
  nestedSheet.setParent 2 none

theorem pass_fails_before_editing_tornSheet :
    tornSheet.validate = .error ⟨2, .parentMismatch 1 none⟩ ∧
    RunM.exec (pass {}) ⟨tornSheet, []⟩ =
      (.error (.malformed ⟨2, .parentMismatch 1 none⟩), ⟨tornSheet, [.pass]⟩) ∧
    nestedSheet.validate = .ok () ∧
    (∃ tally t log', RunM.exec (pass {}) ⟨nestedSheet, []⟩ = (.ok tally, ⟨t, log'⟩) ∧
      t.validate = .ok ()) ∧
    ∃ error stop,
      RunM.exec (Pipeline.run ([.setParent 2 none] ++ .flatten {} :: [.removeNode 1]))
        ⟨nestedSheet, []⟩ = (.error error, stop) ∧ stop.sheet = tornSheet := by
  have htorn : tornSheet.validate = .error ⟨2, .parentMismatch 1 none⟩ := by decide +kernel
  have hnested : nestedSheet.validate = .ok () := by decide +kernel
  obtain ⟨hrefused, hdone, hpipeline⟩ := pass_fails_before_editing {}
  obtain ⟨hsheet, hrun⟩ := hpipeline [.setParent 2 none] [.removeNode 1] ⟨nestedSheet, []⟩
    ⟨tornSheet, [.plugin "set-parent"]⟩ _ _ rfl (exec_runPlugin_malformed htorn {})
  exact ⟨htorn, hrefused tornSheet [] _ htorn, hnested, hdone nestedSheet [] hnested,
    _, _, hrun, hsheet⟩

end Unnest.Flatten
