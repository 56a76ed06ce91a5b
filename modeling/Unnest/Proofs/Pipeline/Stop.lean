import Unnest.Pipeline.Process

/-!
# Where a pipeline stops

A pipeline is its reading, its plugins one after the other and the printing of
what they leave. It ends at the first plugin that fails, with the sheet and the
log exactly as this plugin leaves them.
-/

namespace Unnest.Pipeline

open RunM

def entering (plugin : Plugin) (run : Run) : Run :=
  { run with log := run.log ++ [.plugin plugin.name] }

theorem exec_runPlugin (plugin : Plugin) (start : Run) :
    exec (runPlugin plugin) start =
      match exec plugin.run (entering plugin start) with
      | (.ok _, stop) => (.ok (), stop)
      | (.error cause, stop) => (.error (.plugin plugin.name cause), stop) := by
  rw [runPlugin, exec_bind, exec_record]
  simp only [exec_mapError, entering]
  generalize exec plugin.run _ = outcome
  obtain ⟨result, stop⟩ := outcome
  cases result <;> rfl

theorem exec_run_nil (start : Run) : exec (run []) start = (.ok (), start) := rfl

theorem exec_run_cons (plugin : Plugin) (plugins : List Plugin) (start : Run) :
    exec (run (plugin :: plugins)) start =
      match exec plugin.run (entering plugin start) with
      | (.ok _, mid) => exec (run plugins) mid
      | (.error cause, stop) => (.error (.plugin plugin.name cause), stop) := by
  rw [run, List.forM_eq_forM, List.forM_cons, exec_bind, exec_runPlugin]
  generalize exec plugin.run _ = outcome
  obtain ⟨result, mid⟩ := outcome
  cases result <;> rfl

theorem exec_run_append (before after : List Plugin) (start : Run) :
    exec (run (before ++ after)) start =
      match exec (run before) start with
      | (.ok _, mid) => exec (run after) mid
      | (.error error, stop) => (.error error, stop) := by
  induction before generalizing start with
  | nil => rfl
  | cons first before ih =>
      rw [List.cons_append, exec_run_cons, exec_run_cons]
      split
      · exact ih _
      · rfl

theorem exec_run_append_of_error {before after : List Plugin} {plugin : Plugin}
    {start mid stop : Run} {error : PipelineError}
    (hbefore : exec (run before) start = (.ok (), mid))
    (hplugin : exec (runPlugin plugin) mid = (.error error, stop)) :
    exec (run (before ++ plugin :: after)) start = (.error error, stop) := by
  rw [exec_runPlugin] at hplugin
  rw [exec_run_append, hbefore]
  dsimp only
  rw [exec_run_cons]
  split at hplugin
  · cases hplugin
  · exact hplugin

/-- A failing run is the work of the first plugin that fails. -/
theorem exists_failing_of_run_error {plugins : List Plugin} {start stop : Run}
    {error : PipelineError} (h : exec (run plugins) start = (.error error, stop)) :
    ∃ before plugin after mid cause, plugins = before ++ plugin :: after ∧
      exec (run before) start = (.ok (), mid) ∧
      exec plugin.run (entering plugin mid) = (.error cause, stop) ∧
      error = .plugin plugin.name cause := by
  induction plugins generalizing start with
  | nil => cases h
  | cons first plugins ih =>
      rw [exec_run_cons] at h
      split at h
      · next mid hfirst =>
          obtain ⟨before, plugin, after, last, cause, rfl, hbefore, hplugin, herror⟩ := ih h
          refine ⟨first :: before, plugin, after, last, cause, rfl, ?_, hplugin, herror⟩
          rw [exec_run_cons, hfirst]
          exact hbefore
      · next cause mid hfirst =>
          cases h
          exact ⟨[], first, plugins, start, cause, rfl, rfl, hfirst, rfl⟩

theorem exec_load (source : String) (start : Run) :
    exec (load source) start =
      match parse source with
      | .ok s => (.ok (), ⟨s, start.log ++ [.parse (Text.byteLength source.toList)] ++
          [.parsed s.size]⟩)
      | .error cause => (.error (.parse cause),
          ⟨start.sheet, start.log ++ [.parse (Text.byteLength source.toList)]⟩) := by
  simp only [load, exec_bind, exec_record, exec_settle]
  cases parse source <;> rfl

def opening (plugins : List Plugin) (run : Run) : Run :=
  { run with log := run.log ++ [.process plugins.length] }

theorem exec_process (plugins : List Plugin) (source : String) (start : Run) :
    exec (process plugins source) start =
      match exec (load source) (opening plugins start) with
      | (.ok _, first) =>
          match exec (run plugins) first with
          | (.ok _, stop) => (.ok stop.sheet.print, stop)
          | (.error error, stop) => (.error error, stop)
      | (.error error, stop) => (.error error, stop) := by
  simp only [process, exec_bind, exec_record, exec_getSheet, exec_pure, opening]
  generalize exec (load source) _ = outcome
  obtain ⟨_ | _, first⟩ := outcome
  · rfl
  · dsimp only
    generalize exec (run plugins) first = outcome
    obtain ⟨_ | _, stop⟩ := outcome <;> rfl

/-- What a pipeline reports of a plugin comes of the first plugin that fails. -/
theorem exists_failing_of_process_error {plugins : List Plugin} {source name : String}
    {cause : PluginError} {start stop : Run}
    (h : exec (process plugins source) start = (.error (.plugin name cause), stop)) :
    ∃ before plugin after first mid, plugins = before ++ plugin :: after ∧ plugin.name = name ∧
      exec (load source) (opening plugins start) = (.ok (), first) ∧
      exec (run before) first = (.ok (), mid) ∧
      exec plugin.run (entering plugin mid) = (.error cause, stop) := by
  rw [exec_process] at h
  split at h
  · next first hload =>
      split at h
      · cases h
      · next hrun =>
          cases h
          obtain ⟨before, plugin, after, mid, cause', heq, hbefore, hplugin, herror⟩ :=
            exists_failing_of_run_error hrun
          cases herror
          exact ⟨before, plugin, after, first, mid, heq, rfl, hload, hbefore, hplugin⟩
  · next hload =>
      -- The reading reports no plugin.
      rw [exec_load] at hload
      split at hload
      · cases hload
      · cases hload
        cases h

end Unnest.Pipeline
