import Unnest.Pipeline.Plugin
import Unnest.Sheet.Print
import Unnest.Source.Parse

/-!
# Pipelines

A pipeline reads a text, runs its plugins in order over the sheet and prints
it. It stops at the first error, which says whether reading or which plugin
failed. What earlier plugins have changed stays changed.
-/

namespace Unnest

inductive PipelineError where
  | parse (cause : SyntaxError)
  | plugin (name : String) (cause : PluginError)
deriving DecidableEq

namespace PipelineError

def message : PipelineError → String
  | parse _ => "Failed to parse CSS"
  | plugin name _ => "Plugin '" ++ name ++ "' failed"

def chain (error : PipelineError) : List String :=
  error.message ::
    match error with
    | parse cause => [cause.message]
    | plugin _ cause => cause.chain

end PipelineError

namespace Pipeline

open RunM

def runPlugin (plugin : Plugin) : RunM PipelineError Unit := do
  record (.plugin plugin.name)
  plugin.run.mapError (.plugin plugin.name)

def run (plugins : List Plugin) : RunM PipelineError Unit :=
  plugins.forM runPlugin

def load (source : String) : RunM PipelineError Unit := do
  record (.parse (Text.byteLength source.toList))
  let sheet ← settle ((parse source).mapError .parse)
  setSheet sheet
  record (.parsed sheet.size)

def process (plugins : List Plugin) (source : String) : RunM PipelineError String := do
  record (.process plugins.length)
  load source
  run plugins
  return (← getSheet).print

end Pipeline

end Unnest
