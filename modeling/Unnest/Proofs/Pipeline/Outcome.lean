import Unnest.Proofs.Flatten.Again
import Unnest.Proofs.Flatten.History
import Unnest.Proofs.Pipeline.Stop
import Unnest.Proofs.Sheet.Drift

/-!
# What a pipeline delivers

The plugins of a pipeline may damage parent links as they like. When the pass
comes last, the sheet that it finds is refused, or it is linked because no list
names the root. The pass then makes a flat sheet of it. A pipeline that ends in
the pass therefore stops at the first plugin that fails or prints a flat sheet.
-/

namespace Unnest

open RunM

/-- Whatever sheet the plugin finds, what it leaves comes of it by checked edits
and by writes of parent links, no matter whether it fails. -/
def Plugin.OnlyEdits (plugin : Plugin) : Prop :=
  ∀ run : Run, run.sheet.Drifts (exec plugin.run run).2.sheet

/-- The links are those of a tree, and rules with declarations are at top level. -/
structure Sheet.Flat (s : Sheet) : Prop where
  validate : s.validate = .ok ()
  parent?_root : s.parent? rootId = none
  mem_children_root {id : NodeId} :
    id ∈ s.walkRules → s.hasDeclarations id = true → id ∈ s.children rootId
  isAttached_iff {id : NodeId} : s.isAttached id = true ↔ id ∈ s.walk

/-! ## Plugins that only edit -/

namespace Plugin

theorem onlyEdits_of_keeps {plugin : Plugin} (h : ∀ s, Keeps (Sheet.Drifts s) plugin.run) :
    plugin.OnlyEdits :=
  fun run => h run.sheet run .refl

theorem onlyEdits_scope (selector : String) : (scope selector).OnlyEdits := by
  refine onlyEdits_of_keeps fun _ => .bind .getSheet fun _ => ?_
  exact .bind (.mapError _ (.create .append)) fun _ =>
    .forM (fun _ => .mapError _ (.edit .move)) _

theorem onlyEdits_setParent (id : NodeId) (parent : Option NodeId) :
    (setParent id parent).OnlyEdits := by
  refine onlyEdits_of_keeps fun _ => .mapError _ (.edit fun hdrifts hset => ?_)
  cases hset
  exact hdrifts.setParent id parent

end Plugin

/-! ## The sheet in front of the pass -/

namespace Pipeline

theorem rootUnlisted_of_run {plugins : List Plugin}
    (hplugins : ∀ plugin ∈ plugins, plugin.OnlyEdits) {start : Run}
    (hstart : start.sheet.RootUnlisted) : (exec (run plugins) start).2.sheet.RootUnlisted := by
  induction plugins generalizing start with
  | nil => exact hstart
  | cons first plugins ih =>
      obtain ⟨hfirst, hplugins⟩ := List.forall_mem_cons.mp hplugins
      have hmid := hstart.of_drifts (hfirst (entering first start))
      rw [exec_run_cons]
      split
      · next mid heq =>
          rw [heq] at hmid
          exact ih hplugins hmid
      · next heq => rwa [heq] at hmid

theorem parse_of_load {source : String} {start first : Run}
    (h : exec (load source) start = (.ok (), first)) : parse source = .ok first.sheet := by
  rw [exec_load] at h
  split at h
  · next s hparse =>
      cases h
      exact hparse
  · cases h

end Pipeline

/-! ## The sheet behind the pass -/

namespace Flatten

theorem flat_of_pass {s : Sheet} (hs : s.Linked) {options : Options} {log : List LogEntry}
    {tally : Tally} {stop : Run}
    (h : exec (pass options) ⟨s, log⟩ = (.ok tally, stop)) : stop.sheet.Flat := by
  obtain ⟨moves, t, hpass, -, hstage, -⟩ :=
    Stage.exec_pass hs hs.consistent.validate_eq_ok options log
  rw [hpass] at h
  cases h
  have ht := hstage.linked hs
  refine ⟨ht.consistent.validate_eq_ok, ht.parent?_root, ?_, ?_⟩
  · intro id hid hdecl
    obtain ⟨hbelow, hrule⟩ := ht.mem_walkRules.mp hid
    exact ht.mem_children (hstage.parent?_of_hasDeclarations hs hbelow hrule hdecl)
  · intro id
    rw [ht.isAttached_iff, ht.mem_walk]

/-- The pass as the last plugin goes through exactly if the check accepts the
sheet that it finds. -/
theorem exists_exec_flatten_iff (options : Options) (run : Run) :
    (∃ stop, exec (Plugin.flatten options).run run = (.ok (), stop)) ↔
      run.sheet.validate = .ok () := by
  rw [exec_flatten]
  cases hvalid : run.sheet.validate with
  | ok _ =>
      obtain ⟨tally, t, log', hpass, -⟩ := exists_exec_pass hvalid options run.log
      simp [hpass]
  | error malformation => simp [exec_pass_malformed hvalid]

end Flatten

/-! ## Pipelines that end in the pass -/

namespace Pipeline

variable {plugins : List Plugin} {options : Flatten.Options} {source css : String}
variable {start stop : Run}

theorem exists_of_process_ok
    (h : exec (process (plugins ++ [.flatten options]) source) start = (.ok css, stop)) :
    ∃ first mid,
      exec (load source) (opening (plugins ++ [.flatten options]) start) = (.ok (), first) ∧
      exec (run plugins) first = (.ok (), mid) ∧
      exec (Plugin.flatten options).run (entering (.flatten options) mid) = (.ok (), stop) ∧
      css = stop.sheet.print := by
  rw [exec_process] at h
  split at h
  · next first hload =>
      rw [exec_run_append] at h
      split at h
      · next last hrun =>
          split at hrun
          · next mid hplugins =>
              rw [exec_run_cons] at hrun
              split at hrun
              · next hlast =>
                  cases hrun
                  cases h
                  exact ⟨first, mid, hload, hplugins, hlast, rfl⟩
              · cases hrun
          · cases hrun
      · cases h
  · cases h

theorem process_eq_ok {first mid : Run}
    (hload : exec (load source) (opening (plugins ++ [.flatten options]) start) =
      (.ok (), first))
    (hplugins : exec (run plugins) first = (.ok (), mid))
    (hlast : exec (Plugin.flatten options).run (entering (.flatten options) mid) =
      (.ok (), stop)) :
    exec (process (plugins ++ [.flatten options]) source) start =
      (.ok stop.sheet.print, stop) := by
  simp only [exec_process, hload, exec_run_append, hplugins, exec_run_cons, hlast,
    exec_run_nil]

/-- What is printed is a flat sheet. -/
theorem flat_of_process_ok (hplugins : ∀ plugin ∈ plugins, plugin.OnlyEdits)
    (h : exec (process (plugins ++ [.flatten options]) source) start = (.ok css, stop)) :
    stop.sheet.Flat ∧ css = stop.sheet.print := by
  obtain ⟨first, mid, hload, hrun, hlast, hcss⟩ := exists_of_process_ok h
  have hvalid : mid.sheet.validate = .ok () :=
    (Flatten.exists_exec_flatten_iff options (entering (.flatten options) mid)).mp ⟨stop, hlast⟩
  have hunlisted : mid.sheet.RootUnlisted := by
    have := rootUnlisted_of_run hplugins (wellFormed_of_parse (parse_of_load hload)).rootUnlisted
    rwa [hrun] at this
  rw [Flatten.exec_flatten] at hlast
  split at hlast
  · next tally last hpass =>
      cases hlast
      exact ⟨Flatten.flat_of_pass (hunlisted.linked hvalid) hpass, hcss⟩
  · cases hlast

/-- A pipeline that ends in the pass either prints a flat sheet or stops at the
first plugin that fails, with what this plugin leaves; it comes to printing
exactly if no plugin before the pass fails and the check accepts what they
leave. This holds whatever these plugins do by checked edits and by writes of
parent links. -/
theorem process_delivers_flat (hplugins : ∀ plugin ∈ plugins, plugin.OnlyEdits)
    (options : Flatten.Options) (source : String) (start : Run) :
    (∀ css stop,
      exec (process (plugins ++ [.flatten options]) source) start = (.ok css, stop) →
      stop.sheet.Flat ∧ css = stop.sheet.print) ∧
    (∀ name cause stop,
      exec (process (plugins ++ [.flatten options]) source) start =
        (.error (.plugin name cause), stop) →
      ∃ before plugin after first mid,
        plugins ++ [.flatten options] = before ++ plugin :: after ∧ plugin.name = name ∧
        exec (load source) (opening (plugins ++ [.flatten options]) start) = (.ok (), first) ∧
        exec (run before) first = (.ok (), mid) ∧
        exec plugin.run (entering plugin mid) = (.error cause, stop)) ∧
    ((∃ css stop,
      exec (process (plugins ++ [.flatten options]) source) start = (.ok css, stop)) ↔
      ∃ first mid,
        exec (load source) (opening (plugins ++ [.flatten options]) start) = (.ok (), first) ∧
        exec (run plugins) first = (.ok (), mid) ∧ mid.sheet.validate = .ok ()) := by
  refine ⟨fun _ _ => flat_of_process_ok hplugins,
    fun _ _ _ => exists_failing_of_process_error, ?_, ?_⟩
  · rintro ⟨css, stop, h⟩
    obtain ⟨first, mid, hload, hrun, hlast, -⟩ := exists_of_process_ok h
    exact ⟨first, mid, hload, hrun,
      (Flatten.exists_exec_flatten_iff options (entering (.flatten options) mid)).mp ⟨stop, hlast⟩⟩
  · rintro ⟨first, mid, hload, hrun, hvalid⟩
    obtain ⟨stop, hlast⟩ :=
      (Flatten.exists_exec_flatten_iff options (entering (.flatten options) mid)).mpr hvalid
    exact ⟨_, stop, process_eq_ok hload hrun hlast⟩

/-- A link is cut and mended before the pass, and the rules are scoped. -/
theorem process_delivers_flat_mendedLink :
    (∀ plugin ∈ [Plugin.setParent 2 none, .setParent 2 (some 1), .scope ".s"],
      plugin.OnlyEdits) ∧
    ∃ css stop,
      exec (process ([.setParent 2 none, .setParent 2 (some 1), .scope ".s"] ++ [.flatten {}])
        "a\x7bb\x7bc\x7bx:y\x7d\x7d\x7d") ⟨.empty, []⟩ = (.ok css, stop) ∧
      stop.sheet.Flat ∧ css = stop.sheet.print := by
  have hplugins : ∀ plugin ∈ [Plugin.setParent 2 none, .setParent 2 (some 1), .scope ".s"],
      plugin.OnlyEdits := by
    simp only [List.forall_mem_cons]
    exact ⟨Plugin.onlyEdits_setParent 2 none, Plugin.onlyEdits_setParent 2 (some 1),
      Plugin.onlyEdits_scope ".s", by simp⟩
  obtain ⟨hflat, -, hprints⟩ := process_delivers_flat hplugins {}
    "a\x7bb\x7bc\x7bx:y\x7d\x7d\x7d" ⟨.empty, []⟩
  have hload : exec (load "a\x7bb\x7bc\x7bx:y\x7d\x7d\x7d") ⟨.empty, [.process 4]⟩ =
      (.ok (), ⟨Flatten.nestedSheet, [.process 4, .parse 12, .parsed 5]⟩) := by
    decide +kernel
  obtain ⟨css, stop, hrun⟩ := hprints.mpr ⟨_, _, hload, rfl, by decide +kernel⟩
  exact ⟨hplugins, css, stop, hrun, hflat css stop hrun⟩

end Pipeline

end Unnest
