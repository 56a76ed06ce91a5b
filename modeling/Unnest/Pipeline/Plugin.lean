import Unnest.Flatten.Pass

/-!
# Plugins

A plugin is a named step of a pipeline. Besides the pass itself there are plugins
that scope rules, add and remove nodes, write a parent link, or just fail.
-/

namespace Unnest

inductive PluginError where
  | flatten (cause : FlattenError)
  | edit (cause : EditError)
  | failure (message : String)
deriving DecidableEq

def PluginError.chain : PluginError → List String
  | flatten cause => cause.chain
  | edit cause => [cause.message]
  | failure message => [message]

structure Plugin where
  name : String
  run : RunM PluginError Unit

namespace Plugin

open RunM

def ofEdit (name : String) (change : Sheet → Except EditError Sheet) : Plugin :=
  ⟨name, (RunM.edit change).mapError .edit⟩

def flatten (options : Flatten.Options) : Plugin where
  name := "flatten-nesting"
  run := do
    let _ ← (Flatten.pass options).mapError PluginError.flatten

def scope (selector : String) : Plugin where
  name := "scope-rules"
  run := do
    let s ← getSheet
    let rules := (s.children rootId).filter s.isRule
    let outer ← (create (·.append rootId (.rule selector))).mapError .edit
    rules.forM fun rule => (RunM.edit (·.move outer rule)).mapError .edit

def broken (message : String) : Plugin where
  name := "broken"
  run := throw (.failure message)

def removeNode (id : NodeId) : Plugin :=
  ofEdit "remove-node" (·.detach id)

def setParent (id : NodeId) (parent : Option NodeId) : Plugin :=
  ofEdit "set-parent" fun s => .ok (s.setParent id parent)

def appendRule (parent : NodeId) (selector : String) : Plugin where
  name := "append-rule"
  run := do
    let rule ← (create (·.append parent (.rule selector))).mapError .edit
    let _ ← (create (·.append rule (.declaration "added" "1" false))).mapError .edit

end Plugin

end Unnest
